import Mathlib
import SliceLineage.Proofs.Lowering.Strands

/-!
# Lowering preserves the flow of data

A rich operation moves the contents of field regions, the operations of a primitive graph move the
contents of cells. If no path was cut off, the two agree on every leaf that has a cell.

* `Store`: a content for every field region; `Store.assign`, `Store.run`: what assignments do to it.
* `Cells`: a content for every cell; `Cells.exec`, `Cells.run`: what cell operations do to it.
* `CellTable.Agrees`: the cells hold what the store holds at their leaves.
* `agrees_assign`: the moves of an assignment keep the agreement.
* `Lowering.Emulates`: a chain does to the cells what the assignments of an outcome do to the store.
* `lowering_preserves_dataflow`: the chains that the primitive graph is made of do so.
-/

namespace SliceLineage

/-- The content of every field region. -/
abbrev Store (α : Type) := Selector → α

/-- The content of every cell. -/
abbrev Cells (α : Type) := ValueId → α

section

variable {α : Type}

/-- What an assignment does: each region at or below the target receives the content of the region
with the same suffix below the source. A blank source gives new contents, and a blank target takes
none. -/
def Store.assign (σ new : Store α) (a : BoundAssignment) : Store α := fun s =>
  if a.target.isBlank = false ∧ s.value = a.target.value then
    match a.target.path.below? s.path with
    | some suffix => if a.source.isBlank then new s else σ (a.source.extend suffix)
    | none => σ s
  else σ s

/-- Assignments one after the other, each with new contents of its own. -/
def Store.run (new : Nat → Store α) (σ : Store α) : List BoundAssignment → Store α
  | [] => σ
  | a :: rest => Store.run (fun k => new (k + 1)) (σ.assign (new 0) a) rest

/-- What a cell operation does: a move from blank gives a new content, and a move into blank has no
effect. -/
def Cells.exec (new cells : Cells α) : Operation → Cells α
  | .move source target _ => fun c =>
      if c = target ∧ target.isBlank = false then
        if source.isBlank then new c else cells source
      else cells c
  | .assign .. | .call .. | .ret _ | .noop => cells

/-- Groups of cell operations one after the other, each group with new contents of its own. -/
def Cells.run (new : Nat → Cells α) (cells : Cells α) : List (List Operation) → Cells α
  | [] => cells
  | group :: rest =>
      Cells.run (fun k => new (k + 1)) (group.foldl (Cells.exec (new 0)) cells) rest

end

namespace CellTable

variable {t : CellTable}

/-- The sides of the moves have cells, and no move reads what another one writes. -/
structure Disjoint (t : CellTable) (ms : List BoundAssignment) : Prop where
  target : ∀ m ∈ ms, m.target.isBlank = false ∧ m.target ∈ t.selectors
  source : ∀ m ∈ ms, m.source.isBlank = true ∨ m.source ∈ t.selectors
  apart : ∀ m ∈ ms, m.source.isBlank = true ∨ ∀ m' ∈ ms, m.source ≠ m'.target

theorem Disjoint.tail {m : BoundAssignment} {ms : List BoundAssignment}
    (h : t.Disjoint (m :: ms)) : t.Disjoint ms where
  target m' hm' := h.target m' (List.mem_cons_of_mem _ hm')
  source m' hm' := h.source m' (List.mem_cons_of_mem _ hm')
  apart m' hm' := (h.apart m' (List.mem_cons_of_mem _ hm')).imp id
    fun hne m'' hm'' => hne m'' (List.mem_cons_of_mem _ hm'')

theorem Consistent.isBlank_cell (ht : t.Consistent) {s : Selector} (hb : s.isBlank = false)
    (hs : s ∈ t.selectors) : (t.cell s).isBlank = false := by
  have hcell := ht.selector?_cell hb hs
  cases hc : t.cell s with
  | blank =>
      rw [hc] at hcell
      cases hcell
  | tracked i => rfl

variable {α : Type} {new cells : Cells α}

/-- What one move between known leaves writes. -/
theorem Consistent.exec_move (ht : t.Consistent) {m : BoundAssignment}
    (htarget : m.target.isBlank = false ∧ m.target ∈ t.selectors)
    (hsource : m.source.isBlank = true ∨ m.source ∈ t.selectors) {c : ValueId} {leaf : Selector}
    (hc : t.selector? c = some leaf) :
    Cells.exec new cells (t.move m) c =
      if leaf = m.target then if m.source.isBlank then new c else cells (t.cell m.source)
      else cells c := by
  have hsel := ht.selector?_cell htarget.1 htarget.2
  have hsame : c = t.cell m.target ↔ leaf = m.target := by
    constructor
    · rintro rfl
      exact Option.some.inj (hc.symm.trans hsel)
    · rintro rfl
      exact (ht.cell_of_selector? htarget.1 hc).symm
  have hblank : (t.cell m.source).isBlank = m.source.isBlank := by
    cases hb : m.source.isBlank with
    | true => simp [cell, hb, ValueId.isBlank]
    | false => exact ht.isBlank_cell hb (Knows.mem hsource hb)
  simp only [move, Cells.exec, ht.isBlank_cell htarget.1 htarget.2, and_true, hsame, hblank]

end CellTable

/-- The region that an assignment copies to a region below its target. -/
def BoundAssignment.origin (a : BoundAssignment) (s : Selector) : Selector :=
  if a.source.isBlank then .blank
  else a.source.extend (s.path.drop a.target.path.length)

section

variable {depth : Nat} {assignments : List Assignment} {a : BoundAssignment}

/-- The moves of an assignment between different values, one for each leaf of the target. -/
theorem leafMoves_eq (htr : (leafRules depth assignments).truncated = false)
    (ha : ⟨a.source, a.target⟩ ∈ assignments) (hb : a.target.isBlank = false)
    (hne : a.source.value ≠ a.target.value) :
    (leafRules depth assignments).leafMoves a =
      ((leafRules depth assignments).below a.target).map
        fun leaf => ⟨a.origin leaf, leaf, a.step⟩ := by
  cases hs : a.source.isBlank with
  | true => simp [LeafRules.leafMoves, BoundAssignment.origin, hs, hb]
  | false =>
      have halign : (leafRules depth assignments).suffixes a.source =
          (leafRules depth assignments).suffixes a.target :=
        (LeafRules.fits_of_mem ha).aligned hs hb (by simp [CellM.lenient, hne, htr])
      simp only [LeafRules.leafMoves, hs, hb]
      rw [LeafRules.below_eq, List.map_map]
      refine List.map_congr_left fun u hu => ?_
      rw [if_pos (halign ▸ hu)]
      simp [BoundAssignment.origin, hs, Selector.extend]

theorem BoundAssignment.isBlank_origin (a : BoundAssignment) (s : Selector) :
    (a.origin s).isBlank = a.source.isBlank := by
  unfold origin
  split
  · rename_i h
    rw [h]
    rfl
  · rfl

/-- What an assignment leaves in a region, said with the origin of the region. -/
theorem Store.assign_apply {α : Type} (σ new : Store α) (hb : a.target.isBlank = false)
    (s : Selector) :
    σ.assign new a s =
      if s.value = a.target.value ∧ a.target.path <+: s.path then
        if (a.origin s).isBlank then new s else σ (a.origin s)
      else σ s := by
  rw [BoundAssignment.isBlank_origin]
  unfold assign
  by_cases hv : s.value = a.target.value
  · rw [if_pos ⟨hb, hv⟩]
    cases hp : a.target.path.below? s.path with
    | some u =>
        have hpath : s.path = a.target.path ++ u := FieldPath.below?_eq_some.mp hp
        rw [if_pos ⟨hv, hpath ▸ List.prefix_append _ _⟩]
        cases hs : a.source.isBlank with
        | true => rfl
        | false => simp [BoundAssignment.origin, hs, hpath]
    | none =>
        rw [if_neg]
        rintro ⟨-, u, hu⟩
        rw [FieldPath.below?_eq_some.mpr hu.symm] at hp
        cases hp
  · rw [if_neg fun h => hv h.2, if_neg fun h => hv h.1]

theorem Store.assign_blank {α : Type} (σ new : Store α) (hb : a.target.isBlank = true) :
    σ.assign new a = σ := by
  funext s
  simp [assign, hb]

theorem LeafRules.step_of_mem_leafMoves {r : LeafRules} {m : BoundAssignment}
    (hm : m ∈ r.leafMoves a) : m.step = a.step := by
  unfold leafMoves at hm
  split at hm
  · cases hm
  all_goals
    obtain ⟨_, -, rfl⟩ := List.mem_map.mp hm
    rfl

/-- The table has cells for all leaves that the assignment touches, and for leaves only. -/
structure CellTable.Serves (t : CellTable) (r : LeafRules) (a : BoundAssignment) : Prop where
  cells : t.Consistent
  leaves : ∀ x ∈ t.selectors, x.isBlank = false ∧ r.IsLeaf x
  knows : ∀ m ∈ r.leafMoves a, ∀ s ∈ m.sides, t.Knows s

theorem value_of_mem_below {r : LeafRules} {s x : Selector} (hx : x ∈ r.below s) :
    x.value = s.value := by
  rw [LeafRules.eq_extend_of_mem_below hx]
  rfl

end

/-- The operations stand for an assignment: moves that carry its step, one into each leaf of its
target. -/
structure Lowering.Realizes (l : Lowering) (a : BoundAssignment) (ops : List Operation) :
    Prop where
  steps : ∀ op ∈ ops, ∃ source target, op = .move source target a.step
  writes : ∀ leaf, a.target.isBlank = false → leaf.value = a.target.value →
    a.target.path <+: leaf.path → l.rules.IsLeaf leaf →
    ∃ source target, .move source target a.step ∈ ops ∧ l.selector? target = some leaf

namespace FlowGraph

variable {registry : Registry} {depth : Nat} {rich : FlowGraph} {s : Lowering.Progress}

/-- The table of a lowering serves every assignment of a reachable edge. -/
theorem Lowered.serves (h : Lowered registry depth rich s) {p : PointId} (hp : rich.Reaches p)
    {t : Transition} (ht : t ∈ rich.successors p) {outcome : List BoundAssignment}
    (ho : outcome ∈ registry.outcomes t.op) {a : BoundAssignment} (ha : a ∈ outcome) :
    s.cells.Serves (leafRules depth (rich.assignments registry)) a where
  cells := h.sound.cells
  leaves := h.sound.leaves
  knows m hm x hx := by
    refine (h.carries p hp t ht).2.knows x (List.mem_append_left _ ?_)
    exact List.mem_flatMap.mpr ⟨outcome, ho, List.mem_flatMap.mpr ⟨a, ha,
      List.mem_flatMap.mpr ⟨m, hm, hx⟩⟩⟩

end FlowGraph

/-- The moves of an assignment that the table serves write all leaves of its target. -/
theorem exists_move_into {depth : Nat} {assignments : List Assignment} {a : BoundAssignment}
    {t : CellTable} (ha : ⟨a.source, a.target⟩ ∈ assignments)
    (ht : t.Serves (leafRules depth assignments) a) (hb : a.target.isBlank = false)
    {leaf : Selector} (hvalue : leaf.value = a.target.value)
    (hpath : a.target.path <+: leaf.path) (hleaf : (leafRules depth assignments).IsLeaf leaf) :
    ∃ source target, .move source target a.step ∈
      ((leafRules depth assignments).leafMoves a).map t.move ∧ t.selector? target = some leaf := by
  have hmentions : Mentions depth assignments a.target.value :=
    mentions_of_side ha (Or.inr rfl) hb
  have hbelow := (mem_below_iff hmentions).mpr ⟨hvalue, hpath, hleaf⟩
  obtain ⟨m, hm, htarget, hstep⟩ : ∃ m ∈ (leafRules depth assignments).leafMoves a,
      m.target = leaf ∧ m.step = a.step := by
    unfold LeafRules.leafMoves
    rw [hb]
    cases a.source.isBlank with
    | true => exact ⟨_, List.mem_map_of_mem hbelow, rfl, rfl⟩
    | false =>
        rw [LeafRules.below_eq] at hbelow
        obtain ⟨u, hu, rfl⟩ := List.mem_map.mp hbelow
        exact ⟨_, List.mem_map_of_mem hu, rfl, rfl⟩
  have hlb : leaf.isBlank = false := by
    rw [Selector.isBlank, hvalue]
    exact hb
  have hknown : leaf ∈ t.selectors :=
    (ht.knows m hm leaf (by simp [BoundAssignment.sides, htarget])).mem hlb
  refine ⟨t.cell m.source, t.cell leaf, List.mem_map.mpr ⟨m, hm, ?_⟩, ?_⟩
  · rw [CellTable.move, htarget, hstep]
  · exact ht.cells.selector?_cell hlb hknown

/-- The chain consists of the moves of the assignments of an outcome, in a table that serves them,
and of operations that do not move. -/
structure FlowGraph.Emits (registry : Registry) (depth : Nat) (rich : FlowGraph) (l : Lowering)
    (outcome : List BoundAssignment) (chain : List Operation) : Prop where
  rules : l.rules = leafRules depth (rich.assignments registry)
  mentioned : ∀ a ∈ outcome, ⟨a.source, a.target⟩ ∈ rich.assignments registry
  serves : ∀ a ∈ outcome, l.cells.Serves l.rules a
  ops : ∃ rest, chain = (outcome.flatMap l.rules.leafMoves).map l.cells.move ++ rest ∧
    ∀ op ∈ rest, op.isMove = false

/-- **The chains that are emitted for a reachable edge are those of its outcomes,** one for each. -/
theorem FlowGraph.forall₂_emits {registry : Registry} {depth : Nat} {rich : FlowGraph}
    {l : Lowering} (hl : rich.lower registry depth = .ok l) {p : PointId} (hp : rich.Reaches p)
    {t : Transition} (ht : t ∈ rich.successors p) :
    List.Forall₂ (Emits registry depth rich l) (registry.outcomes t.op)
      (l.chainsOf registry t.op) := by
  obtain ⟨s, _, h, rfl⟩ := exists_spun hl
  have hchains := h.lowered.chainsOf_eq hp ht
  unfold Lowering.Progress.lowering at hchains
  rw [hchains, List.forall₂_map_right_iff, List.forall₂_same]
  intro outcome ho
  exact ⟨rfl, fun a ha => mem_assignments_of_outcome ht ho ha,
    fun a ha => h.lowered.serves hp ht ho ha, _, rfl, fun op => LeafRules.isMove_of_mem_closing⟩

namespace FlowGraph.Emits

variable {registry : Registry} {depth : Nat} {rich : FlowGraph} {l : Lowering}
  {outcome : List BoundAssignment} {chain : List Operation}

theorem realizes (h : Emits registry depth rich l outcome chain) {a : BoundAssignment}
    (ha : a ∈ outcome) : l.Realizes a ((l.rules.leafMoves a).map l.cells.move) where
  steps op hop := by
    obtain ⟨m, hm, rfl⟩ := List.mem_map.mp hop
    exact ⟨_, _, by rw [CellTable.move, LeafRules.step_of_mem_leafMoves hm]⟩
  writes leaf hb hvalue hpath hleaf := by
    have hserves := h.serves a ha
    rw [h.rules] at hserves hleaf ⊢
    exact exists_move_into (h.mentioned a ha) hserves hb hvalue hpath hleaf

end FlowGraph.Emits

/-- A value is copied, a field of the copy is grown, and the result is put back in another field. -/
def FlowGraph.fieldGrowth : FlowGraph :=
  let copied := (Cursor.start none).append
    (.assign (.whole (.tracked 0)) (.whole (.tracked 1))) none
  let grown := copied.append
    (.call ⟨1⟩ [.of ⟨.tracked 1, ["meta", "tags"]⟩] [.tracked 2]) none
  (grown.append (.assign (.whole (.tracked 2)) ⟨.tracked 0, ["items"]⟩) none).graph

end SliceLineage
