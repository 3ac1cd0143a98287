import Mathlib
import SliceLineage.Proofs.Check.Growths
import SliceLineage.Proofs.Json.Lossless
import SliceLineage.Proofs.Lowering.SelfCopies
import SliceLineage.Proofs.Lowering.SplitCells

/-!
# Cells and leaves correspond one to one

All that is known of a cell afterwards is its number. So a number must stand for one region only, a
region must keep its number whatever is met later, and no region of a followed value may be taken
for blank.

* `CellTable.firstSights`: the followed regions among the calls, in the order of their first call.
* `CellTable.WellFormed`: the list and the index of a table are inverse to each other, and no region
  of the blank value is in them; `wellFormed_internAll`: so it is after every run of calls.
* `CellTable.selectors_internAll`: the regions are numbered in the order of first sight.
* `FlowGraph.cells_lower`: a lowering interns the leaves that the reachable edges touch, in the
  order of the edges, and nothing else.
* `cells_correspond_to_leaves`: the result, for calls in any order and for lowerings.
-/

namespace SliceLineage

namespace CellTable

/-- The followed regions among the calls, each at its first call. -/
def firstSights (calls : List Selector) : List Selector := (calls.filter (!·.isBlank)).eraseDups

/-- The two parts of the table are inverse to each other, and no region of the blank value is in
them. -/
structure WellFormed (t : CellTable) : Prop extends Consistent t where
  followed : ∀ s ∈ t.selectors, s.isBlank = false

variable {t t' : CellTable} {s s' : Selector} {c : ValueId} {calls : List Selector}

/-! ## A single region -/

theorem Consistent.cell_eq_blank_iff (ht : t.Consistent) (h : t.Knows s) :
    t.cell s = .blank ↔ s.isBlank = true := by
  constructor
  · intro hcell
    by_contra hb
    have hfollowed : s.isBlank = false := by simpa using hb
    have hnot := ht.isBlank_cell hfollowed (h.mem hfollowed)
    rw [hcell] at hnot
    cases hnot
  · exact cell_of_blank

/-- Two regions with the same cell are the same, unless that cell is the blank one. -/
theorem Consistent.eq_of_cell_eq (ht : t.Consistent) (h : t.Knows s) (h' : t.Knows s')
    (hb : s.isBlank = false) (hcell : t.cell s = t.cell s') : s = s' := by
  have hb' : s'.isBlank = false := by
    cases hblank : s'.isBlank with
    | false => rfl
    | true =>
        rw [(ht.cell_eq_blank_iff h').mpr hblank, ht.cell_eq_blank_iff h, hb] at hcell
        cases hcell
  by_contra hne
  exact ht.cell_ne_cell hb (h.mem hb) hb' (h'.mem hb') hne hcell

/-- A region that has a cell gets the same one again, and the table stays as it is. -/
theorem Consistent.intern_eq (ht : t.Consistent) (h : t.Knows s) :
    t.intern s = (t.cell s, t) := by
  rcases ht.intern_cases s with ⟨hb, hintern⟩ | ⟨hb, -, c, hc, hintern⟩ | ⟨hb, hnew, -⟩
  · rw [hintern, cell_of_blank hb]
  · rw [hintern]
    simp [cell, hb, hc]
  · exact absurd (h.mem hb) hnew

/-- The cells are the numbers below the size of the table. -/
theorem exists_selector?_iff : (∃ s, t.selector? c = some s) ↔ ∃ k < t.size, c = .tracked k := by
  cases c with
  | blank => simp [selector?]
  | tracked k => simp [selector?, size, List.getElem?_eq_some_iff]

theorem Consistent.get?_of_grows (h : t.Consistent) (h' : t'.Consistent)
    (hg : t.selectors <+: t'.selectors) (hs : t.get? s = some c) :
    t'.get? s = some c ∧ t'.selector? c = some s := by
  have hc := selector?_of_grows hg ((h.inverse s c).mp hs)
  exact ⟨(h'.inverse s c).mpr hc, hc⟩

/-! ## Calls one after the other -/

/-- **Every run of calls keeps the two parts inverse to each other**, by induction on the calls. -/
theorem Consistent.interns_internAll (ht : t.Consistent) (calls : List Selector) :
    Interns calls t (t.internAll calls).2 := by
  induction calls generalizing t with
  | nil => exact ht.interns_nil
  | cons s rest ih =>
      have hfirst := (ht.intern_spec s).2
      exact hfirst.trans (ih hfirst.consistent)

/-- **The answers are the cells of the last table**: what a call answers is not changed by a later
one. -/
theorem Consistent.fst_internAll (ht : t.Consistent) (calls : List Selector) :
    (t.internAll calls).1 = calls.map (t.internAll calls).2.cell := by
  induction calls generalizing t with
  | nil => rfl
  | cons s rest ih =>
      have hfirst := ht.intern_spec s
      have hrest := hfirst.2.consistent.interns_internAll rest
      have hknows := hfirst.2.knows s (List.mem_singleton.mpr rfl)
      show (t.intern s).1 :: ((t.intern s).2.internAll rest).1 = _
      rw [List.map_cons, ih hfirst.2.consistent, hfirst.1,
        ← hfirst.2.consistent.cell_eq_of_grows hrest.consistent hrest.grows hknows]
      rfl

theorem Interns.wellFormed (h : Interns calls t t') (ht : t.WellFormed) : t'.WellFormed where
  toConsistent := h.consistent
  followed s hs := (h.only s hs).elim (ht.followed s) And.right

theorem wellFormed_internAll (calls : List Selector) : (empty.internAll calls).2.WellFormed :=
  (Consistent.empty.interns_internAll calls).wellFormed ⟨.empty, by simp [empty]⟩

theorem mem_firstSights : s ∈ firstSights calls ↔ s ∈ calls ∧ s.isBlank = false := by
  simp [firstSights]

theorem firstSights_of_seen (h : s.isBlank = true ∨ s ∈ calls) :
    firstSights (calls ++ [s]) = firstSights calls := by
  unfold firstSights
  rw [List.filter_append, List.eraseDups_append]
  cases hb : s.isBlank with
  | true => simp [hb]
  | false =>
      have hs : s ∈ calls := h.resolve_left (by simp [hb])
      simp [hb, hs, List.removeAll]

theorem firstSights_of_new (hb : s.isBlank = false) (h : s ∉ calls) :
    firstSights (calls ++ [s]) = firstSights calls ++ [s] := by
  unfold firstSights
  rw [List.filter_append, List.eraseDups_append]
  simp [hb, h, List.removeAll, List.eraseDups_cons]

/-- **Regions are numbered in the order of first sight**, by induction on the calls from the last
one. -/
theorem selectors_internAll (calls : List Selector) :
    (empty.internAll calls).2.selectors = firstSights calls := by
  induction calls using List.reverseRecOn with
  | nil => rfl
  | append_singleton calls s ih =>
      have hlast : (empty.internAll (calls ++ [s])).2 = ((empty.internAll calls).2.intern s).2 := by
        rw [internAll_append]
        rfl
      rw [hlast]
      rcases (wellFormed_internAll calls).intern_cases s with
        ⟨hb, hintern⟩ | ⟨-, hs, c, -, hintern⟩ | ⟨hb, hnew, hintern⟩ <;> rw [hintern]
      · rw [firstSights_of_seen (Or.inl hb), ih]
      · rw [ih] at hs
        rw [firstSights_of_seen (Or.inr (mem_firstSights.mp hs).1), ih]
      · rw [ih] at hnew
        rw [firstSights_of_new hb fun hs => hnew (mem_firstSights.mpr ⟨hs, hb⟩), ← ih]
        rfl

/-- A call of the list is about a region that the last table knows, and its answer is the cell of
that region there. -/
theorem of_mem_zip_answers (ht : t.Consistent) {p : Selector × ValueId}
    (hp : p ∈ calls.zip (t.internAll calls).1) :
    (t.internAll calls).2.Knows p.1 ∧ p.2 = (t.internAll calls).2.cell p.1 := by
  have hzip : calls.zip (t.internAll calls).1 =
      calls.map fun s => (s, (t.internAll calls).2.cell s) := by
    rw [ht.fst_internAll]
    simpa using List.zip_map' (f := id) (g := (t.internAll calls).2.cell) (l := calls)
  rw [hzip] at hp
  obtain ⟨s, hs, rfl⟩ := List.mem_map.mp hp
  exact ⟨(ht.interns_internAll calls).knows s hs, rfl⟩

/-- The answer is blank just for a region of the blank value. -/
theorem answer_eq_blank_iff (ht : t.Consistent) {p : Selector × ValueId}
    (hp : p ∈ calls.zip (t.internAll calls).1) : p.2 = .blank ↔ p.1.value = .blank := by
  obtain ⟨hknows, hcell⟩ := of_mem_zip_answers ht hp
  rw [hcell, (ht.interns_internAll calls).consistent.cell_eq_blank_iff hknows, Selector.isBlank,
    ValueId.isBlank_iff]

/-- Calls about one region have one answer, and calls about different ones have different answers
unless both are blank. -/
theorem answers_agree (ht : t.Consistent) {p q : Selector × ValueId}
    (hp : p ∈ calls.zip (t.internAll calls).1) (hq : q ∈ calls.zip (t.internAll calls).1) :
    (p.1 = q.1 → p.2 = q.2) ∧ (p.1.value ≠ .blank → p.2 = q.2 → p.1 = q.1) := by
  obtain ⟨hknows, hcell⟩ := of_mem_zip_answers ht hp
  obtain ⟨hknows', hcell'⟩ := of_mem_zip_answers ht hq
  rw [hcell, hcell']
  refine ⟨congrArg _, fun hne => ?_⟩
  exact (ht.interns_internAll calls).consistent.eq_of_cell_eq hknows hknows'
    (ValueId.isBlank_eq_false_iff.mpr hne)

/-- An answer that is not blank is a number below the size of the table, and each of these is an
answer. -/
theorem mem_answers_iff : c ∈ (empty.internAll calls).1 ∧ c ≠ .blank ↔
    ∃ k < (empty.internAll calls).2.size, c = .tracked k := by
  have hknows := (Consistent.empty.interns_internAll calls).knows
  have hform := wellFormed_internAll calls
  rw [Consistent.empty.fst_internAll, ← exists_selector?_iff]
  constructor
  · rintro ⟨hc, hne⟩
    obtain ⟨s, hs, rfl⟩ := List.mem_map.mp hc
    exact ⟨s, (hform.selector?_of_cell_eq rfl hne (hknows s hs)).2.2⟩
  · rintro ⟨s, hc⟩
    have hs := mem_of_selector? hc
    have hcell := hform.cell_of_selector? (hform.followed s hs) hc
    rw [selectors_internAll] at hs
    exact ⟨List.mem_map.mpr ⟨s, (mem_firstSights.mp hs).1, hcell⟩, ne_blank_of_selector? hc⟩

/-- As long as the numbers are smaller than the one that stands for blank, each answer has a number
of its own in 32 bits. -/
theorem fitsWord_of_mem_answers (hsize : (firstSights calls).length < 2 ^ 32 - 1)
    (hc : c ∈ (empty.internAll calls).1) : c.FitsWord := by
  by_cases hne : c = .blank
  · rw [hne]
    trivial
  · obtain ⟨k, hk, rfl⟩ := mem_answers_iff.mp ⟨hc, hne⟩
    rw [size, selectors_internAll] at hk
    show k < UInt32.size - 1
    simp only [UInt32.size]
    omega

end CellTable

/-! ## The cells of a lowering -/

/-- The leaf that a cell stands for; no leaf of a followed value has the blank cell. -/
def Lowering.leaf (l : Lowering) (cell : ValueId) : Selector := (l.selector? cell).getD .blank

/-- The cell is that of the region; of the blank value only the whole counts. -/
structure CellTable.Denotes (t : CellTable) (c : ValueId) (s : Selector) : Prop where
  known : t.Knows s
  canonical : s.isBlank = true → s = .blank
  cell : t.cell s = c

theorem CellTable.Denotes.eq_iff {t : CellTable} (ht : t.Consistent) {c c' : ValueId}
    {s s' : Selector} (h : t.Denotes c s) (h' : t.Denotes c' s') : c = c' ↔ s = s' := by
  rw [← h.cell, ← h'.cell]
  refine ⟨fun heq => ?_, congrArg _⟩
  cases hb : s.isBlank with
  | false => exact ht.eq_of_cell_eq h.known h'.known hb heq
  | true =>
      have hcell : t.cell s' = .blank := heq ▸ (ht.cell_eq_blank_iff h.known).mpr hb
      rw [h.canonical hb, h'.canonical ((ht.cell_eq_blank_iff h'.known).mp hcell)]

theorem CellTable.Denotes.leaf_eq {l : Lowering} (ht : l.cells.Consistent) {c : ValueId}
    {s : Selector} (h : l.cells.Denotes c s) : l.leaf c = s := by
  rw [← h.cell, Lowering.leaf, Lowering.selector?]
  cases hb : s.isBlank with
  | true => rw [h.canonical hb]; rfl
  | false => rw [ht.selector?_cell hb (h.known.mem hb)]; rfl

/-- The cells that a move reads and writes. -/
def Operation.moved : Operation → List ValueId
  | .move source target _ => [source, target]
  | .assign .. | .call .. | .ret _ | .noop => []

/-- The leaves that the reachable edges touch, in the order of the edges. -/
def FlowGraph.touchedLeaves (registry : Registry) (r : LeafRules) (g : FlowGraph) :
    List Selector :=
  g.reachableEdges.flatMap fun e => r.touched registry e.2.op

namespace Lowering

variable {rules : LeafRules} {registry : Registry} {rich : FlowGraph} {s s' : Progress}

theorem cells_image {p q : PointId} (hrun : (image rich p).run s = .ok (q, s')) :
    s'.cells = s.cells := by
  rcases run_image rich hrun with rfl | ⟨-, rfl⟩ <;> rfl

/-- The chains of an operation intern the leaves that it touches. -/
theorem cells_chains {op : Operation} {result : List (List Operation)} (hs : s.Sound rules)
    (hop : op.isMove = false) (hc : rules.Covers registry op)
    (hrun : (chains registry rules op).run s = .ok (result, s')) :
    s'.cells = (s.cells.internAll (rules.touched registry op)).2 := by
  obtain ⟨t, ht, hi⟩ := (CellM.yields_chains hop hc.fits hc.returns).runs s.cells hs.cells
  have hbind : (((CellM.chains registry rules op).run s.cells >>= fun r => Except.ok (r, s)) >>=
      fun r => Except.ok (r.1.1, { s with cells := r.1.2 })) = Except.ok (result, s') := hrun
  rw [ht] at hbind
  cases hbind
  exact hi.order

theorem cells_edge {e : PointId × Transition} (hs : s.Sound rules) (hop : e.2.op.isMove = false)
    (hc : rules.Covers registry e.2.op)
    (hrun : (edge registry rules rich e).run s = .ok ((), s')) :
    s'.cells = (s.cells.internAll (rules.touched registry e.2.op)).2 := by
  obtain ⟨start, s₁, hrun₁, hs₁, -, -⟩ := image_spec rich hs e.1
  obtain ⟨stop, s₂, hrun₂, hs₂, -, hstop⟩ := image_spec rich hs₁ e.2.target
  obtain ⟨s₃, hrun₃, hs₃, hg₃, -⟩ := chains_spec hs₂ hop hc
  obtain ⟨s₄, hrun₄, -, -, hcells, -⟩ := putChains_spec rich start hs₃
    (hs₃.images _ _ (hg₃.images _ _ hstop)) LeafRules.isPrimitive_of_mem_chains
  rw [edge, run_bind_of_ok hrun₁, run_bind_of_ok hrun₂, run_bind_of_ok hrun₃] at hrun
  cases hrun₄.symm.trans hrun
  rw [hcells, cells_chains hs₂ hop hc hrun₃, cells_image hrun₂, cells_image hrun₁]

/-- **Lowering edges interns the leaves that they touch**, one edge after the other. -/
theorem cells_edges {es : List (PointId × Transition)} :
    ∀ {s s' : Progress}, s.Sound rules →
      (∀ e ∈ es, e.2.op.isMove = false ∧ rules.Covers registry e.2.op) →
      (edges registry rules rich es).run s = .ok ((), s') →
      s'.cells = (s.cells.internAll (es.flatMap fun e => rules.touched registry e.2.op)).2 := by
  induction es with
  | nil =>
      intro s s' _ _ hrun
      cases hrun
      rfl
  | cons e rest ih =>
      intro s s' hs hes hrun
      obtain ⟨hop, hc⟩ := hes e List.mem_cons_self
      obtain ⟨s₁, hrun₁, hs₁, -, -⟩ := edge_spec rich e.1 hs hop hc
      rw [edges, run_bind_of_ok hrun₁] at hrun
      rw [ih hs₁ (fun e he => hes e (List.mem_cons_of_mem _ he)) hrun,
        cells_edge hs hop hc hrun₁, List.flatMap_cons, CellTable.internAll_append]

end Lowering

/-- The sides of a move are followed regions, or the whole blank value. -/
theorem LeafRules.eq_blank_of_mem_leafMoves {r : LeafRules} {a m : BoundAssignment}
    (hm : m ∈ r.leafMoves a) {s : Selector} (hs : s ∈ m.sides) (hb : s.isBlank = true) :
    s = .blank := by
  have hfollowed : ∀ x : Selector, x.isBlank = false → s ≠ x := by
    rintro x hx rfl
    rw [hb] at hx
    cases hx
  have hside := BoundAssignment.mem_sides.mp hs
  rcases leafMoves_cases hm with ⟨ht, leaf, hleaf, rfl⟩ | ⟨hsb, leaf, hleaf, rfl⟩ |
    ⟨hsb, ht, u, -, ⟨-, rfl⟩ | ⟨-, rfl⟩⟩
  · refine hside.resolve_right (hfollowed leaf ?_)
    rw [Selector.isBlank, value_of_mem_below hleaf]
    exact ht
  · refine hside.resolve_left (hfollowed leaf ?_)
    rw [Selector.isBlank, value_of_mem_below hleaf]
    exact hsb
  · exact absurd hside (not_or.mpr ⟨hfollowed _ hsb, hfollowed _ ht⟩)
  · exact hside.resolve_right (hfollowed _ ht)

namespace FlowGraph

variable {registry : Registry} {depth : Nat} {rich : FlowGraph} {l : Lowering}

/-- **The cells of a lowering are those of the touched leaves.** -/
theorem cells_lower (hl : rich.lower registry depth = .ok l) :
    l.cells = (CellTable.empty.internAll (rich.touchedLeaves registry l.rules)).2 := by
  obtain ⟨s, drawn, h, rfl⟩ := exists_spun hl
  refine Lowering.cells_edges (Lowering.Progress.sound_start _ rich) (fun e he => ?_)
    h.lowered.runs
  obtain ⟨hp, ht⟩ := mem_reachableEdges_iff.mp he
  exact ⟨(h.lowered.carries _ hp _ ht).1, covers_of_mem_successors registry depth ht⟩

/-- A move of the primitive graph is the move of a leaf: its cells are those of the two sides of one
of the moves that an assignment of a reachable edge stands for. -/
theorem exists_leafMove_of_lower (hl : rich.lower registry depth = .ok l) {q : PointId}
    {u : Transition} (hu : u ∈ l.graph.successors q) {source target : ValueId} {step : GenStep}
    (hop : u.op = .move source target step) :
    ∃ p, rich.Reaches p ∧ ∃ t ∈ rich.successors p, l.origin? u.target = some t.target ∧
      ∃ outcome ∈ registry.outcomes t.op, ∃ a ∈ outcome, ∃ m ∈ l.rules.leafMoves a,
        m.step = step ∧ l.cells.Denotes source m.source ∧ l.cells.Denotes target m.target := by
  obtain ⟨s, drawn, h, rfl⟩ := exists_spun hl
  obtain ⟨p, hp, t, ht, horigin, outcome, ho, a, ha, m, hm, hsource, htarget, hstep, hknows⟩ :=
    h.exists_leafMove hu hop
  have hblank := fun side hside => LeafRules.eq_blank_of_mem_leafMoves (s := side) hm hside
  exact ⟨p, hp, t, ht, horigin, outcome, ho, a, ha, m, hm, hstep,
    ⟨hknows _ m.source_mem_sides, hblank _ m.source_mem_sides, hsource⟩,
    ⟨hknows _ m.target_mem_sides, hblank _ m.target_mem_sides, htarget⟩⟩

theorem exists_denotes_of_mem_moved (hl : rich.lower registry depth = .ok l) {q : PointId}
    {u : Transition} (hu : u ∈ l.graph.successors q) {cell : ValueId} (hcell : cell ∈ u.op.moved) :
    ∃ s, l.cells.Denotes cell s := by
  cases hop : u.op with
  | move source target step =>
      obtain ⟨-, -, -, -, -, -, -, -, -, m, -, -, hsource, htarget⟩ :=
        exists_leafMove_of_lower hl hu hop
      rw [hop] at hcell
      rcases List.mem_pair.mp hcell with rfl | rfl
      · exact ⟨m.source, hsource⟩
      · exact ⟨m.target, htarget⟩
  | assign | call | ret | noop =>
      rw [hop] at hcell
      cases hcell

end FlowGraph

/-- **Cells and leaves correspond one to one.** Let regions be interned one after the other, from an
empty table. The answer is blank just for the regions of the blank value; any other two calls have
the same answer just if they are about the same region. The cells in use are the numbers below the
size of the table, in the order of first sight; looking up a region and looking up a cell are
inverse to each other; and later calls change no answer. With fewer than `2 ^ 32 - 1` regions every
answer has a number of its own in 32 bits.

A lowering interns the leaves that the reachable edges touch. Each of its moves is the move of a
leaf, from the leaf of one cell to that of the other; so two moves have a cell in common just if
they have the leaf of that cell in common. -/
theorem cells_correspond_to_leaves :
    (∀ calls : List Selector,
      let answers := (CellTable.empty.internAll calls).1
      let t := (CellTable.empty.internAll calls).2
      answers.length = calls.length ∧
      (∀ p ∈ calls.zip answers, (p.2 = .blank ↔ p.1.value = .blank) ∧
        ∀ q ∈ calls.zip answers, (p.1 = q.1 → p.2 = q.2) ∧
          (p.1.value ≠ .blank → p.2 = q.2 → p.1 = q.1)) ∧
      (∀ cell, cell ∈ answers ∧ cell ≠ .blank ↔ ∃ k < t.size, cell = .tracked k) ∧
      t.size = (CellTable.firstSights calls).length ∧
      (∀ k, t.selector? (.tracked k) = (CellTable.firstSights calls)[k]?) ∧
      (∀ s cell, t.get? s = some cell ↔ t.selector? cell = some s) ∧
      (∀ more, answers <+: (CellTable.empty.internAll (calls ++ more)).1 ∧
        let later := (CellTable.empty.internAll (calls ++ more)).2
        (∀ p ∈ calls.zip answers, later.intern p.1 = (p.2, later)) ∧
        ∀ s cell, t.get? s = some cell →
          later.get? s = some cell ∧ later.selector? cell = some s) ∧
      ((CellTable.firstSights calls).length < 2 ^ 32 - 1 →
        ∀ cell ∈ answers, ValueId.ofJson? cell.toJson = some cell)) ∧
    ∀ (registry : Registry) (depth : Nat) (rich : FlowGraph) (l : Lowering),
      rich.lower registry depth = .ok l →
      l.cells = (CellTable.empty.internAll (rich.touchedLeaves registry l.rules)).2 ∧
      (∀ e ∈ l.graph.edges, ∀ source target step, e.2.op = .move source target step →
        ∃ p, rich.Reaches p ∧ ∃ t ∈ rich.successors p, l.origin? e.2.target = some t.target ∧
          ∃ outcome ∈ registry.outcomes t.op, ∃ a ∈ outcome,
            ⟨l.leaf source, l.leaf target, step⟩ ∈ l.rules.leafMoves a) ∧
      ∀ e ∈ l.graph.edges, ∀ e' ∈ l.graph.edges,
        ∀ cell ∈ e.2.op.moved, ∀ cell' ∈ e'.2.op.moved,
          (cell = cell' ↔ l.leaf cell = l.leaf cell') := by
  constructor
  · intro calls answers t
    have hform : t.WellFormed := CellTable.wellFormed_internAll calls
    have hselectors : t.selectors = CellTable.firstSights calls :=
      CellTable.selectors_internAll calls
    refine ⟨?_, fun p hp => ⟨CellTable.answer_eq_blank_iff .empty hp, fun q hq =>
        CellTable.answers_agree .empty hp hq⟩, fun cell => CellTable.mem_answers_iff, ?_, fun k => ?_,
      hform.inverse, fun more => ?_, fun hsize cell hcell => ?_⟩
    · show (CellTable.empty.internAll calls).1.length = calls.length
      rw [CellTable.Consistent.empty.fst_internAll, List.length_map]
    · rw [CellTable.size, hselectors]
    · rw [← hselectors]
      rfl
    · have happend := CellTable.empty.internAll_append calls more
      have hmore := hform.interns_internAll more
      rw [happend]
      refine ⟨List.prefix_append _ _, fun p hp => ?_, fun s cell =>
        hform.get?_of_grows hmore.consistent hmore.grows⟩
      obtain ⟨hp, hcell⟩ := CellTable.of_mem_zip_answers .empty hp
      rw [hcell, ← hform.cell_eq_of_grows hmore.consistent hmore.grows hp]
      exact hmore.consistent.intern_eq (hp.grow hmore.grows)
    · exact ValueId.ofJson?_toJson_iff.mpr (CellTable.fitsWord_of_mem_answers hsize hcell)
  · intro registry depth rich l hl
    have hcells : l.cells.Consistent := by
      rw [FlowGraph.cells_lower hl]
      exact (CellTable.wellFormed_internAll _).toConsistent
    have hedge : ∀ e ∈ l.graph.edges, e.2 ∈ l.graph.successors e.1 := fun e he =>
      FlowGraph.mem_edges.mp he
    refine ⟨FlowGraph.cells_lower hl, fun e he source target step hop => ?_,
      fun e he e' he' cell hcell cell' hcell' => ?_⟩
    · obtain ⟨p, hp, t, ht, horigin, outcome, ho, a, ha, m, hm, rfl, hsource, htarget⟩ :=
        FlowGraph.exists_leafMove_of_lower hl (hedge e he) hop
      refine ⟨p, hp, t, ht, horigin, outcome, ho, a, ha, ?_⟩
      rw [hsource.leaf_eq hcells, htarget.leaf_eq hcells]
      exact hm
    · obtain ⟨s, hs⟩ := FlowGraph.exists_denotes_of_mem_moved hl (hedge e he) hcell
      obtain ⟨s', hs'⟩ := FlowGraph.exists_denotes_of_mem_moved hl (hedge e' he') hcell'
      rw [hs.leaf_eq hcells, hs'.leaf_eq hcells]
      exact hs.eq_iff hcells hs'

/-- Two fields of one value, the first of them twice, and a field of the blank value. -/
def repeatedFields : List Selector :=
  [⟨.tracked 4, ["phone"]⟩, ⟨.blank, ["name"]⟩, ⟨.tracked 4, ["name"]⟩, ⟨.tracked 4, ["phone"]⟩]

/-- The field that is copied and the field that is grown have one cell. -/
theorem repeatedFields_fieldGrowth_correspond :
    (CellTable.empty.internAll repeatedFields).1 = [.tracked 0, .blank, .tracked 1, .tracked 0] ∧
    (∀ cell ∈ (CellTable.empty.internAll repeatedFields).1,
      ValueId.ofJson? cell.toJson = some cell) ∧
    (CellTable.empty.internAll repeatedFields).2.get? ⟨.tracked 4, ["name"]⟩ =
      some (.tracked 1) ∧
    ∃ l, FlowGraph.fieldGrowth.lower .builtin 2 = .ok l ∧
      l.graph.edges = [(⟨0⟩, ⟨⟨2⟩, .move (.tracked 0) (.tracked 1) .same⟩),
        (⟨1⟩, ⟨⟨3⟩, .move (.tracked 3) (.tracked 4) .next⟩),
        (⟨2⟩, ⟨⟨1⟩, .move (.tracked 2) (.tracked 3) .same⟩),
        (⟨3⟩, ⟨⟨4⟩, .move (.tracked 4) (.tracked 0) .same⟩)] ∧
      l.leaf (.tracked 3) = ⟨.tracked 1, ["meta", "tags"]⟩ ∧
      (∀ e ∈ l.graph.edges, ∀ e' ∈ l.graph.edges,
        ∀ cell ∈ e.2.op.moved, ∀ cell' ∈ e'.2.op.moved,
          (cell = cell' ↔ l.leaf cell = l.leaf cell')) := by
  obtain ⟨htable, hlowering⟩ := cells_correspond_to_leaves
  obtain ⟨-, -, -, -, hselector, hinverse, -, hword⟩ := htable repeatedFields
  refine ⟨by decide, hword (by decide), (hinverse _ _).mpr (hselector 1), ?_⟩
  have hedges : (FlowGraph.fieldGrowth.lower .builtin 2).map (·.graph.edges) =
      .ok [(⟨0⟩, ⟨⟨2⟩, .move (.tracked 0) (.tracked 1) .same⟩),
        (⟨1⟩, ⟨⟨3⟩, .move (.tracked 3) (.tracked 4) .next⟩),
        (⟨2⟩, ⟨⟨1⟩, .move (.tracked 2) (.tracked 3) .same⟩),
        (⟨3⟩, ⟨⟨4⟩, .move (.tracked 4) (.tracked 0) .same⟩)] := by cbv
  have hleaf : (FlowGraph.fieldGrowth.lower .builtin 2).map (·.leaf (.tracked 3)) =
      .ok ⟨.tracked 1, ["meta", "tags"]⟩ := by cbv
  cases hl : FlowGraph.fieldGrowth.lower .builtin 2 with
  | error e =>
      rw [hl] at hedges
      cases hedges
  | ok l =>
      rw [hl] at hedges hleaf
      exact ⟨l, rfl, Except.ok.inj hedges, Except.ok.inj hleaf, (hlowering _ _ _ l hl).2.2⟩

end SliceLineage
