import SliceLineage.Flow.Reachable
import SliceLineage.Proofs.Lowering.Cells

/-!
# The cell operations of a rich operation

* `Registry.outcomes`: the assignments that an operation performs, one list for each outcome.
* `LeafRules.leafMoves`: the assignments of single leaves that an assignment stands for.
* `LeafRules.Fits`: what an assignment needs to be split into leaves; `fits_of_mem`: every
  assignment of a batch fits the rules of the batch.
* `CellM.yields_chains`: an operation whose assignments fit has one chain of cell operations for
  each outcome, the moves of its leaves.
-/

namespace SliceLineage

/-- The assignments that an operation performs, one list for each way in which it can go. -/
def Registry.outcomes (registry : Registry) : Operation → List (List BoundAssignment)
  | .assign source target => [[⟨source, target, .same⟩]]
  | .call func inputs outputs => registry.bindCall func inputs outputs
  | .ret _ | .noop => [[]]
  | .move .. => []

/-- The values that an operation returns. -/
def Operation.results : Operation → List ValueId
  | .ret values => values
  | _ => []

def BoundAssignment.sides (a : BoundAssignment) : List Selector := [a.source, a.target]

theorem BoundAssignment.mem_sides {a : BoundAssignment} {s : Selector} :
    s ∈ a.sides ↔ s = a.source ∨ s = a.target := by
  simp [sides]

theorem BoundAssignment.source_mem_sides (a : BoundAssignment) : a.source ∈ a.sides :=
  mem_sides.mpr (Or.inl rfl)

theorem BoundAssignment.target_mem_sides (a : BoundAssignment) : a.target ∈ a.sides :=
  mem_sides.mpr (Or.inr rfl)

/-- The move between the cells of two leaves. -/
def CellTable.move (t : CellTable) (a : BoundAssignment) : Operation :=
  .move (t.cell a.source) (t.cell a.target) a.step

namespace LeafRules

/-- The assignments of single leaves that an assignment stands for. A leaf of the target that has
no partner below the source is assigned from blank. -/
def leafMoves (r : LeafRules) (a : BoundAssignment) : List BoundAssignment :=
  match a.source.isBlank, a.target.isBlank with
  | true, true => []
  | true, false => (r.below a.target).map fun leaf => ⟨.blank, leaf, a.step⟩
  | false, true => (r.below a.source).map fun leaf => ⟨leaf, .blank, a.step⟩
  | false, false => (r.suffixes a.target).map fun u =>
      ⟨if u ∈ r.suffixes a.source then a.source.extend u else .blank, a.target.extend u, a.step⟩

/-- The leaves of a returned value. -/
def resultLeaves (r : LeafRules) (v : ValueId) : List Selector :=
  if v.isBlank then [.blank] else r.below (.whole v)

/-- Where the chain of an operation ends with a return, that return. -/
def closing (r : LeafRules) (t : CellTable) : Operation → List Operation
  | .ret values => [.ret ((values.map fun v => (r.resultLeaves v).map t.cell).flatten)]
  | _ => []

/-- The chain of cell operations of one outcome. -/
def chain (r : LeafRules) (t : CellTable) (op : Operation) (outcome : List BoundAssignment) :
    List Operation :=
  (outcome.flatMap r.leafMoves).map t.move ++ r.closing t op

/-- The leaf regions that an operation touches in one of its outcomes. -/
def touched (r : LeafRules) (registry : Registry) (op : Operation) : List Selector :=
  ((registry.outcomes op).flatMap fun outcome =>
      outcome.flatMap fun a => (r.leafMoves a).flatMap BoundAssignment.sides) ++
    op.results.flatMap r.resultLeaves

/-- The assignment can be split into leaves: each followed side has some, and unless the assignment
is lenient the two sides have the same. -/
structure Fits (r : LeafRules) (a : BoundAssignment) : Prop where
  source : a.source.isBlank = false → ∃ x, x ∈ r.below a.source
  target : a.target.isBlank = false → ∃ x, x ∈ r.below a.target
  aligned : a.source.isBlank = false → a.target.isBlank = false →
    CellM.lenient r a.source a.target = false → r.suffixes a.source = r.suffixes a.target

variable {r : LeafRules}

theorem partner?_below (source target : Selector) (u : FieldPath) :
    CellM.partner? source target (r.below source) (target.extend u) =
      if u ∈ r.suffixes source then some (source.extend u) else none := by
  unfold CellM.partner?
  have hsuffix : (target.extend u).path.drop target.path.length = u := by
    simp [Selector.extend]
  simp only [hsuffix]
  rw [below_eq, List.find?_map]
  have hmatch : ((fun s : Selector => source.path.below? s.path == some u) ∘ source.extend) =
      (· == u) := by
    funext w
    have : source.path.below? (source.path ++ w) = some w := FieldPath.below?_eq_some.mpr rfl
    simp [Selector.extend, this]
  rw [hmatch]
  cases hf : (r.suffixes source).find? (· == u) with
  | some w =>
      have hw := List.find?_some hf
      obtain rfl : w = u := by simpa using hw
      rw [if_pos (List.mem_of_find?_eq_some hf)]
      rfl
  | none =>
      rw [if_neg fun h => by simpa using List.find?_eq_none.mp hf u h]
      rfl

end LeafRules

namespace CellM

open LeafRules (leafMoves resultLeaves)

variable {r : LeafRules} {registry : Registry}

/-- The regions of the blank value need no cell. -/
theorem Yields.widen {β : Type} {m : CellM β} {leaves more : List Selector}
    {read : CellTable → β} (h : Yields m leaves read)
    (hsame : more.filter (!·.isBlank) = leaves.filter (!·.isBlank)) : Yields m more read := by
  have hmem : ∀ s, s.isBlank = false → (s ∈ more ↔ s ∈ leaves) := by
    intro s hb
    simpa [hb] using (congrArg (s ∈ ·) hsame).to_iff
  refine ⟨fun t ht => ?_, fun t t' ht ht' hg hk => h.stable t t' ht ht' hg fun s hs => ?_⟩
  · obtain ⟨t', hrun, hi⟩ := h.runs t ht
    refine ⟨t', hrun, hi.grows, fun s hs => ?_, fun s hs => ?_, hi.consistent, ?_⟩
    · cases hb : s.isBlank with
      | true => exact Or.inl hb
      | false => exact hi.knows s ((hmem s hb).mp hs)
    · exact (hi.only s hs).imp id fun hs => ⟨(hmem s hs.2).mpr hs.1, hs.2⟩
    · rw [hi.order, ← CellTable.internAll_filter t more, hsame, CellTable.internAll_filter]
  · cases hb : s.isBlank with
    | true => exact Or.inl hb
    | false => exact hk s ((hmem s hb).mpr hs)

theorem Yields.expand_bind {β : Type} {s x : Selector} (hx : x ∈ r.below s)
    {k : List Selector → CellM β} {leaves : List Selector} {read : CellTable → β}
    (h : Yields (k (r.below s)) leaves read) :
    Yields (do k (← r.expand s)) leaves read := by
  rw [LeafRules.expand_eq hx]
  exact h

/-- One move of an assignment between followed regions. -/
theorem yields_moveInto {a : BoundAssignment} {u : FieldPath}
    (h : CellM.lenient r a.source a.target = true ∨ u ∈ r.suffixes a.source) :
    Yields (moveInto r a.source a.target a.step (r.below a.source) (a.target.extend u))
      [if u ∈ r.suffixes a.source then a.source.extend u else .blank, a.target.extend u]
      (fun t => t.move ⟨if u ∈ r.suffixes a.source then a.source.extend u else .blank,
        a.target.extend u, a.step⟩) := by
  unfold moveInto
  rw [LeafRules.partner?_below]
  by_cases hu : u ∈ r.suffixes a.source
  · simp only [hu, if_true]
    exact (Yields.intern (a.source.extend u)).bind fun origin =>
      (Yields.intern (a.target.extend u)).map fun cell => Operation.move origin cell a.step
  · simp only [hu, if_false, or_false] at h ⊢
    rw [if_pos h]
    have hmove := (Yields.pure ValueId.blank).bind fun origin =>
      (Yields.intern (a.target.extend u)).map fun cell => Operation.move origin cell a.step
    exact hmove.widen (List.filter_cons_of_neg (by simp [Selector.isBlank_blank]))

/-- Moves between leaves, one for each element of a list. -/
theorem Yields.mapM_move {α : Type} {xs : List α} {f : α → CellM Operation}
    {g : α → BoundAssignment}
    (h : ∀ x ∈ xs, Yields (f x) (g x).sides fun t => t.move (g x)) :
    Yields (xs.mapM f) ((xs.map g).flatMap BoundAssignment.sides)
      fun t => (xs.map g).map t.move := by
  simp only [List.flatMap_map, List.map_map]
  exact Yields.mapM h

/-- A move that reads or writes no leaf on one side only needs the cell of the other one. -/
theorem Yields.moveBlank {leaf : Selector} {a : BoundAssignment} {f : ValueId → Operation}
    (hsides : a = ⟨.blank, leaf, a.step⟩ ∨ a = ⟨leaf, .blank, a.step⟩)
    (hf : ∀ t : CellTable, f (t.cell leaf) = t.move a) :
    Yields (do return f (← CellM.intern leaf)) a.sides fun t => t.move a := by
  have h : Yields (do return f (← CellM.intern leaf)) [leaf] fun t => t.move a := by
    simp only [← hf]
    exact (Yields.intern leaf).map f
  refine h.widen ?_
  rcases hsides with ha | ha <;> rw [ha] <;>
    simp [BoundAssignment.sides, List.filter_cons, Selector.isBlank_blank]

/-- The moves of an assignment between two followed regions. -/
theorem yields_moves {a : BoundAssignment} (h : r.Fits a) (hs : a.source.isBlank = false)
    (ht : a.target.isBlank = false) :
    Yields (moves r a.source a.target a.step) ((r.leafMoves a).flatMap BoundAssignment.sides)
      fun t => (r.leafMoves a).map t.move := by
  obtain ⟨x, hx⟩ := h.source hs
  obtain ⟨y, hy⟩ := h.target ht
  have hcounts : (!lenient r a.source a.target &&
      (r.below a.source).length != (r.below a.target).length) = false := by
    cases hl : lenient r a.source a.target with
    | true => rfl
    | false => simp [LeafRules.below_eq, h.aligned hs ht hl]
  refine .expand_bind hx (.expand_bind hy ?_)
  simp only [hcounts, leafMoves, hs, ht]
  rw [if_neg Bool.false_ne_true, LeafRules.below_eq r a.target, List.mapM_map]
  refine Yields.mapM_move fun u hu => yields_moveInto ?_
  cases hl : lenient r a.source a.target with
  | true => exact Or.inl rfl
  | false => exact Or.inr (h.aligned hs ht hl ▸ hu)

/-- The cell operations of an assignment that fits are the moves of its leaves. -/
theorem yields_assignment {a : BoundAssignment} (h : r.Fits a) :
    Yields (assignment r a.source a.target a.step)
      ((r.leafMoves a).flatMap BoundAssignment.sides) (fun t => (r.leafMoves a).map t.move) := by
  have hmoves := yields_moves h
  unfold assignment
  cases hs : a.source.isBlank <;> cases ht : a.target.isBlank
  · exact hmoves hs ht
  · obtain ⟨x, hx⟩ := h.source hs
    simp only [leafMoves, hs, ht]
    exact .expand_bind hx (.mapM_move fun leaf _ => .moveBlank (Or.inr rfl) fun _ => rfl)
  · obtain ⟨y, hy⟩ := h.target ht
    simp only [leafMoves, hs, ht]
    exact .expand_bind hy (.mapM_move fun leaf _ => .moveBlank (Or.inl rfl) fun _ => rfl)
  · simp only [leafMoves, hs, ht]
    exact Yields.pure []

theorem yields_assignments {outcome : List BoundAssignment} (h : ∀ a ∈ outcome, r.Fits a) :
    Yields (assignments r outcome)
      (outcome.flatMap fun a => (r.leafMoves a).flatMap BoundAssignment.sides)
      (fun t => (outcome.flatMap r.leafMoves).map t.move) := by
  induction outcome with
  | nil => exact Yields.pure []
  | cons a rest ih =>
      have ha := yields_assignment (h a List.mem_cons_self)
      have hrest := ih fun b hb => h b (List.mem_cons_of_mem _ hb)
      simp only [List.flatMap_cons, List.map_append]
      exact ha.bind fun first => hrest.map fun others => first ++ others

theorem yields_returned {v : ValueId} (h : v.isBlank = false → ∃ x, x ∈ r.below (.whole v)) :
    Yields (returned r v) (r.resultLeaves v) (fun t => (r.resultLeaves v).map t.cell) := by
  unfold returned resultLeaves
  cases hv : v.isBlank with
  | true =>
      exact (Yields.pure [ValueId.blank]).widen (by simp [Selector.isBlank_blank])
  | false =>
      obtain ⟨x, hx⟩ := h hv
      refine .expand_bind hx ?_
      have hall : ∀ leaf ∈ r.below (.whole v), Yields (CellM.intern leaf) [leaf] (·.cell leaf) :=
        fun leaf _ => Yields.intern leaf
      simpa using Yields.mapM hall

/-- **A rich operation has one chain of cell operations for each outcome.** It is made of the moves
of the leaves of its assignments, and of the return of the leaves of its results. -/
theorem yields_chains {op : Operation} (hop : op.isMove = false)
    (hfit : ∀ outcome ∈ registry.outcomes op, ∀ a ∈ outcome, r.Fits a)
    (hret : ∀ v, ∃ x, x ∈ r.below (.whole v)) :
    Yields (chains registry r op) (r.touched registry op)
      fun t => (registry.outcomes op).map (r.chain t op) := by
  cases op with
  | assign source target =>
      have ha := yields_assignment (hfit _ List.mem_cons_self ⟨source, target, .same⟩
        List.mem_cons_self)
      simpa [chains, LeafRules.touched, LeafRules.chain, LeafRules.closing, Registry.outcomes,
        Operation.results] using ha.map fun ops => [ops]
  | call func inputs outputs =>
      have hall := Yields.mapM fun outcome ho => yields_assignments (hfit outcome ho)
      have hchain : ∀ t, r.chain t (.call func inputs outputs) =
          fun outcome => (outcome.flatMap r.leafMoves).map t.move := by
        intro t
        funext outcome
        simp [LeafRules.chain, LeafRules.closing]
      simp only [LeafRules.touched, Operation.results, List.flatMap_nil, List.append_nil, hchain]
      exact hall
  | ret values =>
      have hall : ∀ v ∈ values, Yields (returned r v) (r.resultLeaves v)
          (fun t => (r.resultLeaves v).map t.cell) := fun v _ => yields_returned fun _ => hret v
      exact (Yields.mapM hall).map fun cells => [[Operation.ret cells.flatten]]
  | noop => exact Yields.pure [[]]
  | move source target step => simp [Operation.isMove] at hop

end CellM

/-! ## The rules of a batch -/

section

variable {depth : Nat} {assignments : List Assignment}

/-- **Every assignment of a batch fits the rules of the batch.** -/
theorem LeafRules.fits_of_mem {a : BoundAssignment} (ha : ⟨a.source, a.target⟩ ∈ assignments) :
    (leafRules depth assignments).Fits a where
  source hb := exists_mem_below (mem_followedPaths_of_side ha (Or.inl rfl) hb).2
  target hb := exists_mem_below (mem_followedPaths_of_side ha (Or.inr rfl) hb).2
  aligned hs ht hl := by
    simp only [CellM.lenient, Bool.or_eq_false_iff] at hl
    refine suffixes_source_eq_target hl.2 ha ?_
    simp [Assignment.carriesPaths, Assignment.isSelfCopy, hs, ht, hl.1]

/-- The sides of the moves of an assignment are leaves. -/
theorem LeafRules.isLeaf_of_mem_leafMoves {a : BoundAssignment}
    (ha : ⟨a.source, a.target⟩ ∈ assignments) {b : BoundAssignment}
    (hb : b ∈ (leafRules depth assignments).leafMoves a) {s : Selector} (hs : s ∈ b.sides)
    (hblank : s.isBlank = false) : (leafRules depth assignments).IsLeaf s := by
  have hsource : a.source.isBlank = false → Mentions depth assignments a.source.value :=
    mentions_of_side ha (Or.inl rfl)
  have htarget : a.target.isBlank = false → Mentions depth assignments a.target.value :=
    mentions_of_side ha (Or.inr rfl)
  have hnot : s ≠ .blank := by
    rintro rfl
    cases hblank
  unfold leafMoves at hb
  split at hb
  · cases hb
  · rename_i ht
    obtain ⟨leaf, hleaf, rfl⟩ := List.mem_map.mp hb
    simp only [BoundAssignment.sides, List.mem_cons, hnot, List.not_mem_nil, or_false,
      false_or] at hs
    exact hs ▸ ((mem_below_iff (htarget ht)).mp hleaf).2.2
  · rename_i hsb ht
    obtain ⟨leaf, hleaf, rfl⟩ := List.mem_map.mp hb
    simp only [BoundAssignment.sides, List.mem_cons, hnot, List.not_mem_nil, or_false] at hs
    exact hs ▸ ((mem_below_iff (hsource hsb)).mp hleaf).2.2
  · rename_i hsb ht
    obtain ⟨u, hu, rfl⟩ := List.mem_map.mp hb
    simp only [BoundAssignment.sides, List.mem_cons, List.not_mem_nil, or_false] at hs
    rcases hs with rfl | rfl
    · by_cases hus : u ∈ (leafRules depth assignments).suffixes a.source
      · rw [if_pos hus]
        exact (mem_suffixes_iff (hsource hsb)).mp hus
      · exact absurd (if_neg hus) hnot
    · exact (mem_suffixes_iff (htarget ht)).mp hu

/-- A whole value splits into leaves. -/
theorem LeafRules.isLeaf_of_mem_below_whole {r : LeafRules} {v : ValueId} {x : Selector}
    (hx : x ∈ r.below (.whole v)) : r.IsLeaf x := by
  unfold below at hx
  unfold IsLeaf
  split at hx
  · rename_i hl
    rw [List.mem_singleton.mp hx, hl]
    rfl
  · rename_i leaves hl
    obtain ⟨p, hp, rfl⟩ := List.mem_map.mp hx
    rw [show r.leaves? (Selector.mk (Selector.whole v).value p).value = _ from hl]
    exact (List.mem_filter.mp hp).1

/-- **Only leaves get cells.** -/
theorem LeafRules.isLeaf_of_mem_touched {registry : Registry} {op : Operation}
    (hop : ∀ outcome ∈ registry.outcomes op, ∀ a ∈ outcome,
      ⟨a.source, a.target⟩ ∈ assignments) {s : Selector}
    (hs : s ∈ (leafRules depth assignments).touched registry op) (hb : s.isBlank = false) :
    (leafRules depth assignments).IsLeaf s := by
  rcases List.mem_append.mp hs with hs | hs
  · obtain ⟨outcome, ho, hs⟩ := List.mem_flatMap.mp hs
    obtain ⟨a, ha, hs⟩ := List.mem_flatMap.mp hs
    obtain ⟨b, hmove, hs⟩ := List.mem_flatMap.mp hs
    exact isLeaf_of_mem_leafMoves (hop outcome ho a ha) hmove hs hb
  · obtain ⟨v, -, hs⟩ := List.mem_flatMap.mp hs
    unfold resultLeaves at hs
    split at hs
    · rw [List.mem_singleton.mp hs] at hb
      cases hb
    · exact isLeaf_of_mem_below_whole hs

end

namespace LeafRules

variable {r : LeafRules} {t : CellTable} {op o : Operation} {outcome : List BoundAssignment}

theorem exists_ret_of_mem_closing (ho : o ∈ r.closing t op) :
    ∃ values cells, op = .ret values ∧ o = .ret cells := by
  unfold closing at ho
  split at ho
  · exact ⟨_, _, rfl, List.mem_singleton.mp ho⟩
  · cases ho

theorem isMove_of_mem_closing (ho : o ∈ r.closing t op) : o.isMove = false := by
  obtain ⟨_, _, -, rfl⟩ := exists_ret_of_mem_closing ho
  rfl

/-- A chain holds the moves of its assignments and, for a return, one return. -/
theorem mem_chain_cases (ho : o ∈ r.chain t op outcome) :
    (∃ a ∈ outcome, ∃ m ∈ r.leafMoves a, o = t.move m) ∨
      ∃ values cells, op = .ret values ∧ o = .ret cells := by
  rcases List.mem_append.mp ho with ho | ho
  · obtain ⟨m, hm, rfl⟩ := List.mem_map.mp ho
    obtain ⟨a, ha, hm⟩ := List.mem_flatMap.mp hm
    exact Or.inl ⟨a, ha, m, hm, rfl⟩
  · exact Or.inr (exists_ret_of_mem_closing ho)

theorem isPrimitive_of_mem_chain (ho : o ∈ r.chain t op outcome) : o.isPrimitive = true := by
  rcases mem_chain_cases ho with ⟨_, -, _, -, rfl⟩ | ⟨_, _, -, rfl⟩ <;> rfl

theorem isPrimitive_of_mem_chains {registry : Registry} :
    ∀ chain ∈ (registry.outcomes op).map (r.chain t op), ∀ o ∈ chain, o.isPrimitive = true := by
  intro chain hchain o ho
  obtain ⟨outcome, -, rfl⟩ := List.mem_map.mp hchain
  exact isPrimitive_of_mem_chain ho

end LeafRules

/-- The rules split all that an operation reads and writes into leaves. -/
structure LeafRules.Covers (r : LeafRules) (registry : Registry) (op : Operation) : Prop where
  fits : ∀ outcome ∈ registry.outcomes op, ∀ a ∈ outcome, r.Fits a
  returns : ∀ v, ∃ x, x ∈ r.below (.whole v)
  leaves : ∀ s ∈ r.touched registry op, s.isBlank = false → r.IsLeaf s

theorem mem_assignments_of_outcome {registry : Registry} {g : FlowGraph} {p : PointId}
    {t : Transition} (ht : t ∈ g.successors p) {outcome : List BoundAssignment}
    (ho : outcome ∈ registry.outcomes t.op) {a : BoundAssignment} (ha : a ∈ outcome) :
    ⟨a.source, a.target⟩ ∈ g.assignments registry := by
  refine List.mem_flatMap.mpr ⟨(p, t), FlowGraph.mem_edges.mpr ht, ?_⟩
  unfold Registry.outcomes at ho
  cases hop : t.op with
  | assign source target =>
      simp only [hop, List.mem_singleton] at ho
      rw [ho, List.mem_singleton] at ha
      rw [ha]
      exact List.mem_singleton.mpr rfl
  | call func inputs outputs =>
      rw [hop] at ho
      exact List.mem_map.mpr ⟨a, List.mem_flatten.mpr ⟨outcome, ho, ha⟩, rfl⟩
  | ret values =>
      simp only [hop, List.mem_singleton] at ho
      rw [ho] at ha
      cases ha
  | noop =>
      simp only [hop, List.mem_singleton] at ho
      rw [ho] at ha
      cases ha
  | move source target step =>
      rw [hop] at ho
      cases ho

/-- **The rules of a graph cover every operation on its edges.** -/
theorem covers_of_mem_successors (registry : Registry) (depth : Nat) {g : FlowGraph}
    {p : PointId} {t : Transition} (ht : t ∈ g.successors p) :
    (leafRules depth (g.assignments registry)).Covers registry t.op where
  fits _ ho _ ha := LeafRules.fits_of_mem (mem_assignments_of_outcome ht ho ha)
  returns := exists_mem_below_whole
  leaves _ hs hb :=
    LeafRules.isLeaf_of_mem_touched (fun _ ho _ ha => mem_assignments_of_outcome ht ho ha) hs hb

end SliceLineage
