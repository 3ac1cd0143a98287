import Mathlib
import SliceLineage.Proofs.Lowering.SelfCopies
import SliceLineage.Proofs.Summary.Binding

/-!
# What calls write

The chain of an outcome of a call writes what the summary declares: the outputs that the outcome has
a slot for, and of these the regions of its components. An output that the caller asked for and the
outcome lacks, and the leaves of an output beside all components, are not written, and keep what
they held when the call was made the last time.

* `Summary.Defines`: an outcome of a call gives a content to a region.
* `Lowering.Writes`: cell operations write the cell of a leaf.
* `Emits.writes_iff`, `Emits.keeps`: the chain of an outcome writes the leaves below the targets of
  its assignments, and no others.
* `Lowering.WritesDeclared`: a chain writes the leaves that an outcome of a call defines.
* `FlowGraph.call_writes_declared_leaves`: each emitted chain of a call does.
-/

namespace SliceLineage

/-! ## Regions that an outcome defines -/

namespace Summary

variable {s : Summary} {args : List Composition} {outputs : List ValueId} {o : Outcome}
  {leaf : Selector}

/-- What the component is made of covers the region `path` of the output. -/
def Covers (s : Summary) (args : List Composition) (c : OutputComponent) (path : FieldPath) :
    Prop :=
  (s.supply args c).isUnknown = true ∧ c.path <+: path ∨
    ∃ e ∈ (s.supply args c).embeds, c.path ++ e.path <+: path

/-- The outcome has a slot for the output, with a component that covers the region. -/
def Defines (s : Summary) (args : List Composition) (outputs : List ValueId) (o : Outcome)
    (r : Selector) : Prop :=
  ∃ (i : Nat) (slot : OutputSlot), o.outputs[i]? = some slot ∧ outputs[i]? = some r.value ∧
    ∃ c ∈ slot.components, s.Covers args c r.path

/-- The assignments to one component cover the same regions as the component. -/
theorem covers_iff (s : Summary) (args : List Composition) (output : ValueId)
    (c : OutputComponent) (path : FieldPath) :
    s.Covers args c path ↔ ∃ a ∈ s.bindComponent args output c, a.target.path <+: path := by
  unfold Covers bindComponent Composition.isUnknown
  cases (s.supply args c).embeds with
  | nil => simp
  | cons e embeds => simp [Selector.extend]

/-- **An outcome defines the regions at and below the targets of its assignments.** -/
theorem defines_iff_exists_mem (s : Summary) (args : List Composition) (outputs : List ValueId)
    (o : Outcome) (r : Selector) :
    s.Defines args outputs o r ↔ ∃ a ∈ s.bindOutcome args outputs o,
      r.value = a.target.value ∧ a.target.path <+: r.path := by
  constructor
  · rintro ⟨i, slot, hslot, houtput, c, hc, hcovers⟩
    obtain ⟨a, ha, hpath⟩ := (s.covers_iff args r.value c r.path).mp hcovers
    refine ⟨a, ?_, (value_of_mem_bindComponent ha).symm, hpath⟩
    refine List.mem_flatMap.mpr ⟨(slot, r.value), ?_, List.mem_flatMap.mpr ⟨c, hc, ha⟩⟩
    exact List.mem_of_getElem? (List.getElem?_zip_eq_some.mpr ⟨hslot, houtput⟩)
  · rintro ⟨a, ha, hvalue, hpath⟩
    obtain ⟨⟨slot, output⟩, hpair, ha⟩ := List.mem_flatMap.mp ha
    obtain ⟨c, hc, ha⟩ := List.mem_flatMap.mp ha
    obtain rfl := value_of_mem_bindComponent ha
    obtain ⟨i, hi⟩ := List.mem_iff_getElem?.mp hpair
    obtain ⟨hslot, houtput⟩ := List.getElem?_zip_eq_some.mp hi
    have hcovers := (s.covers_iff args _ c r.path).mpr ⟨a, ha, hpath⟩
    exact ⟨i, slot, hslot, hvalue ▸ houtput, c, hc, hcovers⟩

/-- The component stands for the whole output, and for a whole value: one that is new, or one that
an argument is a copy of. -/
def IsWhole (s : Summary) (args : List Composition) (c : OutputComponent) : Prop :=
  c.path = [] ∧ ((s.supply args c).isUnknown = true ∨ ∃ e ∈ (s.supply args c).embeds, e.path = [])

/-- An outcome with a slot for each output, and a whole component in each slot, defines all. -/
theorem defines_of_isWhole (hlength : outputs.length ≤ o.outputs.length)
    (hwhole : ∀ slot ∈ o.outputs, ∃ c ∈ slot.components, s.IsWhole args c)
    (hr : leaf.value ∈ outputs) : s.Defines args outputs o leaf := by
  obtain ⟨i, hi⟩ := List.mem_iff_getElem?.mp hr
  obtain ⟨hlt, -⟩ := List.getElem?_eq_some_iff.mp hi
  have hslot := List.getElem?_eq_getElem (Nat.lt_of_lt_of_le hlt hlength)
  obtain ⟨c, hc, hpath, hsupply⟩ := hwhole _ (List.mem_of_getElem? hslot)
  refine ⟨i, _, hslot, hi, c, hc, ?_⟩
  rw [Covers, hpath]
  refine hsupply.imp (fun hunknown => ⟨hunknown, List.nil_prefix⟩) fun ⟨e, he, hnil⟩ => ⟨e, he, ?_⟩
  rw [hnil]
  exact List.nil_prefix

end Summary

/-! ## Chains of cell operations -/

/-- Some move of the operations goes to the cell of the leaf. -/
def Lowering.Writes (l : Lowering) (ops : List Operation) (leaf : Selector) : Prop :=
  ∃ source target step, .move source target step ∈ ops ∧ l.selector? target = some leaf

/-- Only moves change the contents of cells. -/
theorem Cells.foldl_exec_of_no_move {α : Type} {ops : List Operation}
    (h : ∀ op ∈ ops, op.isMove = false) (new : Cells α) :
    ∀ cells : Cells α, ops.foldl (Cells.exec new) cells = cells := by
  induction ops with
  | nil => exact fun _ => rfl
  | cons op ops ih =>
      intro cells
      have hop : Cells.exec new cells op = cells := by
        have hmove := h op List.mem_cons_self
        cases op with
        | move source target step => cases hmove
        | _ => rfl
      rw [List.foldl_cons, hop]
      exact ih (fun op' hop' => h op' (List.mem_cons_of_mem _ hop')) cells

/-- The target of a move of an assignment lies at or below the target of the assignment. -/
theorem LeafRules.prefix_of_mem_leafMoves {r : LeafRules} {a m : BoundAssignment}
    (hm : m ∈ r.leafMoves a) (hb : m.target.isBlank = false) :
    a.target.isBlank = false ∧ m.target.value = a.target.value ∧
      a.target.path <+: m.target.path := by
  have hbelow : ∀ {x : Selector}, x ∈ r.below a.target →
      x.value = a.target.value ∧ a.target.path <+: x.path := by
    intro x hx
    rw [LeafRules.eq_extend_of_mem_below hx]
    exact ⟨rfl, List.prefix_append _ _⟩
  unfold leafMoves at hm
  split at hm
  · cases hm
  · obtain ⟨x, hx, rfl⟩ := List.mem_map.mp hm
    exact ⟨‹_›, hbelow hx⟩
  · obtain ⟨x, -, rfl⟩ := List.mem_map.mp hm
    cases hb
  · obtain ⟨u, -, rfl⟩ := List.mem_map.mp hm
    exact ⟨‹_›, rfl, List.prefix_append _ _⟩

namespace FlowGraph

variable {registry : Registry} {depth : Nat} {rich : FlowGraph} {l : Lowering}

namespace Emits

variable {outcome : List BoundAssignment} {chain : List Operation} {leaf : Selector}

/-- A move into the cell of a leaf belongs to an assignment to a region at or above the leaf. -/
theorem exists_of_target_eq (h : Emits registry depth rich l outcome chain)
    {a m : BoundAssignment} (ha : a ∈ outcome) (hm : m ∈ l.rules.leafMoves a)
    (htarget : l.selector? (l.cells.cell m.target) = some leaf) :
    leaf.value = a.target.value ∧ a.target.path <+: leaf.path := by
  have hb : m.target.isBlank = false := by
    cases hb : m.target.isBlank with
    | false => rfl
    | true =>
        have hnone : l.selector? (l.cells.cell m.target) = none := by
          simp [Lowering.selector?, CellTable.cell, hb, CellTable.selector?]
        rw [hnone] at htarget
        cases htarget
  have hknown := ((h.serves a ha).knows m hm m.target m.target_mem_sides).mem hb
  obtain rfl : m.target = leaf :=
    Option.some.inj (((h.serves a ha).cells.selector?_cell hb hknown).symm.trans htarget)
  exact (LeafRules.prefix_of_mem_leafMoves hm hb).2

/-- **A chain writes the leaves at and below the targets of the assignments.** -/
theorem writes_iff (h : Emits registry depth rich l outcome chain) (hb : leaf.isBlank = false)
    (hleaf : l.rules.IsLeaf leaf) : l.Writes chain leaf ↔
      ∃ a ∈ outcome, leaf.value = a.target.value ∧ a.target.path <+: leaf.path := by
  obtain ⟨rest, hops, hrest⟩ := h.ops
  constructor
  · rintro ⟨source, target, step, hmove, htarget⟩
    rw [hops] at hmove
    rcases List.mem_append.mp hmove with hmove | hmove
    · obtain ⟨m, hm, heq⟩ := List.mem_map.mp hmove
      obtain ⟨a, ha, hm⟩ := List.mem_flatMap.mp hm
      cases heq
      exact ⟨a, ha, h.exists_of_target_eq ha hm htarget⟩
    · cases hrest _ hmove
  · rintro ⟨a, ha, hvalue, hpath⟩
    have hab : a.target.isBlank = false := by
      rw [Selector.isBlank, ← hvalue]
      exact hb
    obtain ⟨source, target, hmove, htarget⟩ := (h.realizes ha).writes leaf hab hvalue hpath hleaf
    refine ⟨source, target, a.step, ?_, htarget⟩
    rw [hops, List.map_flatMap]
    exact List.mem_append_left _ (List.mem_flatMap.mpr ⟨a, ha, hmove⟩)

/-- **A chain leaves all other cells alone.** -/
theorem keeps (h : Emits registry depth rich l outcome chain)
    (hleaf : ¬ ∃ a ∈ outcome, leaf.value = a.target.value ∧ a.target.path <+: leaf.path)
    {c : ValueId} (hc : l.selector? c = some leaf) {α : Type} (new cells : Cells α) :
    chain.foldl (Cells.exec new) cells c = cells c := by
  obtain ⟨rest, hops, hrest⟩ := h.ops
  rw [hops, List.foldl_append, Cells.foldl_exec_of_no_move hrest]
  refine CellTable.after_of_not_target fun m hm heq => hleaf ?_
  obtain ⟨a, ha, hm⟩ := List.mem_flatMap.mp hm
  exact ⟨a, ha, h.exists_of_target_eq ha hm (heq ▸ hc)⟩

end Emits

end FlowGraph

/-- The chain writes what the outcome of a call declares. It writes a leaf of a requested output
exactly if the outcome has a slot for that output with a component that covers the leaf; the cells
of other leaves keep what they held before. So all leaves of all outputs are written if the outcome
has a slot for each output and a whole component in each slot. -/
structure Lowering.WritesDeclared (l : Lowering) (s : Summary) (args : List Composition)
    (outputs : List ValueId) (o : Outcome) (chain : List Operation) : Prop where
  declared : ∀ leaf, leaf.value ∈ outputs → leaf.isBlank = false → l.rules.IsLeaf leaf →
    (l.Writes chain leaf ↔ s.Defines args outputs o leaf)
  kept : ∀ leaf, ¬ s.Defines args outputs o leaf → ∀ c, l.selector? c = some leaf →
    ∀ (α : Type) (new cells : Cells α), chain.foldl (Cells.exec new) cells c = cells c
  whole : outputs.length ≤ o.outputs.length →
    (∀ slot ∈ o.outputs, ∃ c ∈ slot.components, s.IsWhole args c) →
    ∀ leaf, leaf.value ∈ outputs → leaf.isBlank = false → l.rules.IsLeaf leaf →
      l.Writes chain leaf

namespace FlowGraph

variable {registry : Registry} {depth : Nat} {rich : FlowGraph} {l : Lowering}

theorem Emits.writesDeclared {s : Summary} {args : List Composition} {outputs : List ValueId}
    {o : Outcome} {chain : List Operation}
    (h : Emits registry depth rich l (s.bindOutcome args outputs o) chain) :
    l.WritesDeclared s args outputs o chain := by
  have hwrites : ∀ leaf, leaf.isBlank = false → l.rules.IsLeaf leaf →
      (l.Writes chain leaf ↔ s.Defines args outputs o leaf) := by
    intro leaf hb hleaf
    rw [h.writes_iff hb hleaf, s.defines_iff_exists_mem]
  refine ⟨fun leaf _ => hwrites leaf, fun leaf hnot c hc α new cells => ?_, ?_⟩
  · rw [s.defines_iff_exists_mem] at hnot
    exact h.keeps hnot hc new cells
  · intro hlength hwhole leaf hvalue hb hleaf
    exact (hwrites leaf hb hleaf).mpr (Summary.defines_of_isWhole hlength hwhole hvalue)

/-- **A call writes the leaves that its outcome declares, and leaves the others as they were.** The
primitive graph is made of the chains that are emitted for the reachable edges, and for a call of a
summarized function one chain is emitted for each outcome: the moves of the assignments of the
outcome. The chain writes what the outcome declares. -/
theorem call_writes_declared_leaves (hl : rich.lower registry depth = .ok l) {p : PointId}
    (hp : rich.Reaches p) {t : Transition} (ht : t ∈ rich.successors p) {func : FuncId}
    {args : List Composition} {outputs : List ValueId} (hop : t.op = .call func args outputs)
    {s : Summary} (hs : registry.get? func = some s) :
    (∃ image drawn, Laid registry rich l image drawn) ∧
      List.Forall₂ (fun o chain =>
          Emits registry depth rich l (s.bindOutcome args outputs o) chain ∧
            l.WritesDeclared s args outputs o chain)
        s.outcomes (l.chainsOf registry t.op) := by
  have hemits := forall₂_emits hl hp ht
  have houtcomes : registry.outcomes t.op = s.outcomes.map (s.bindOutcome args outputs) := by
    rw [hop, Registry.outcomes, Registry.bindCall, hs]
    rfl
  rw [houtcomes, List.forall₂_map_left_iff] at hemits
  exact ⟨exists_laid hl, hemits.imp fun o chain h => ⟨h, h.writesDeclared⟩⟩

/-- Built-in functions, and before them one whose output has a field of the argument as a field. -/
def withNext : Registry :=
  (⟨"next", [⟨[["rest"]]⟩], [⟨[⟨[⟨["items"], some ⟨0, 0⟩, .same⟩]⟩]⟩]⟩ ::
    Registry.builtin.summaries).foldl Registry.enter .empty

/-- The function is called, and two fields of its output are grown. -/
def advanced : FlowGraph :=
  let called := (Cursor.start none).append (.call ⟨0⟩ [.of (.whole (.tracked 0))] [.tracked 1]) none
  let grown := called.append (.call ⟨2⟩ [.of ⟨.tracked 1, ["items"]⟩] [.tracked 2]) none
  (grown.append (.call ⟨2⟩ [.of ⟨.tracked 1, ["tags"]⟩] [.tracked 3]) none).graph

theorem advanced_writes_declared :
    ∃ l, advanced.lower withNext 2 = .ok l ∧
      (∃ image drawn, Laid withNext advanced l image drawn) ∧
      l.chainsOf withNext (.call ⟨0⟩ [.of (.whole (.tracked 0))] [.tracked 1]) =
        [[.move (.tracked 0) (.tracked 1) .same]] ∧
      l.rules.IsLeaf ⟨.tracked 1, ["items"]⟩ ∧ l.rules.IsLeaf ⟨.tracked 1, ["tags"]⟩ ∧
      l.Writes [.move (.tracked 0) (.tracked 1) .same] ⟨.tracked 1, ["items"]⟩ ∧
      ¬ l.Writes [.move (.tracked 0) (.tracked 1) .same] ⟨.tracked 1, ["tags"]⟩ := by
  have hchains : (advanced.lower withNext 2).map
      (·.chainsOf withNext (.call ⟨0⟩ [.of (.whole (.tracked 0))] [.tracked 1])) =
      .ok [[.move (.tracked 0) (.tracked 1) .same]] := by cbv
  have hops : advanced.AllOps (·.isMove = false) := by
    unfold advanced
    refine Cursor.allOps_append (Cursor.allOps_append (Cursor.allOps_append ?_ ?_ none) ?_ none)
      ?_ none
    · exact Cursor.allOps_start _ none
    all_goals rfl
  obtain ⟨l, hl, hrules⟩ := exists_lower withNext 2 hops
  rw [hl] at hchains
  have hchains := Except.ok.inj hchains
  have hedge : ⟨⟨1⟩, .call ⟨0⟩ [.of (.whole (.tracked 0))] [.tracked 1]⟩ ∈
      advanced.successors advanced.root := by decide +kernel
  have hleaves : l.rules.leaves? (.tracked 1) = some [["items"], ["tags"]] := by
    rw [hrules]
    cbv
  have hitems : l.rules.IsLeaf ⟨.tracked 1, ["items"]⟩ := by simp [LeafRules.IsLeaf, hleaves]
  have htags : l.rules.IsLeaf ⟨.tracked 1, ["tags"]⟩ := by simp [LeafRules.IsLeaf, hleaves]
  obtain ⟨hlaid, h⟩ := call_writes_declared_leaves hl (.root _) hedge rfl
    (s := ⟨"next", [⟨[["rest"]]⟩], [⟨[⟨[⟨["items"], some ⟨0, 0⟩, .same⟩]⟩]⟩]⟩) rfl
  rw [show l.chainsOf withNext (Transition.op _) = _ from hchains] at h
  have hwrites := (List.forall₂_cons.mp h).1.2.declared
  refine ⟨l, hl, hlaid, hchains, hitems, htags, ?_, ?_⟩
  · rw [hwrites _ (by simp) rfl hitems, Summary.defines_iff_exists_mem]
    exact ⟨_, List.mem_singleton.mpr rfl, rfl, List.prefix_refl _⟩
  · rw [hwrites _ (by simp) rfl htags, Summary.defines_iff_exists_mem]
    rintro ⟨a, ha, -, hpath⟩
    rw [List.mem_singleton.mp ha] at hpath
    exact absurd hpath (by decide)

/-- A growth is asked for two values, and the second one is grown again. -/
def surplus : FlowGraph :=
  let called := (Cursor.start none).append
    (.call ⟨1⟩ [.of (.whole (.tracked 0))] [.tracked 1, .tracked 2]) none
  (called.append (.call ⟨1⟩ [.of (.whole (.tracked 2))] [.tracked 3]) none).graph

/-- The second output of the first growth is a leaf, and the chain of the only outcome does not
write it: its cell keeps what it held before. -/
theorem surplus_output_not_written :
    ∃ l c, surplus.lower .builtin 2 = .ok l ∧
      l.chainsOf .builtin (.call ⟨1⟩ [.of (.whole (.tracked 0))] [.tracked 1, .tracked 2]) =
        [[.move (.tracked 0) (.tracked 1) .next]] ∧
      l.rules.IsLeaf (.whole (.tracked 2)) ∧ l.selector? c = some (.whole (.tracked 2)) ∧
      ¬ l.Writes [.move (.tracked 0) (.tracked 1) .next] (.whole (.tracked 2)) ∧
      ∀ (α : Type) (new cells : Cells α),
        [Operation.move (.tracked 0) (.tracked 1) .next].foldl (Cells.exec new) cells c =
          cells c := by
  have hlowered : (surplus.lower .builtin 2).map (fun l => (l.cells.selectors,
      l.chainsOf .builtin (.call ⟨1⟩ [.of (.whole (.tracked 0))] [.tracked 1, .tracked 2]))) =
      .ok ([.whole (.tracked 0), .whole (.tracked 1), .whole (.tracked 2), .whole (.tracked 3)],
        [[.move (.tracked 0) (.tracked 1) .next]]) := by cbv
  have hedge : ⟨⟨1⟩, .call ⟨1⟩ [.of (.whole (.tracked 0))] [.tracked 1, .tracked 2]⟩ ∈
      surplus.successors surplus.root := by decide +kernel
  cases hl : surplus.lower .builtin 2 with
  | error e =>
      rw [hl] at hlowered
      cases hlowered
  | ok l =>
      rw [hl] at hlowered
      obtain ⟨hselectors, hchains⟩ := Prod.mk.inj (Except.ok.inj hlowered)
      have hcell : l.selector? (.tracked 2) = some (.whole (.tracked 2)) := by
        rw [Lowering.selector?, CellTable.selector?, hselectors]
        rfl
      have hemits := forall₂_emits hl (.root _) hedge
      rw [show l.chainsOf .builtin (Transition.op _) = _ from hchains] at hemits
      have hchain := (List.forall₂_cons.mp hemits).1
      have hnot : ¬ ∃ a ∈ [(⟨.whole (.tracked 0), .whole (.tracked 1), .next⟩ : BoundAssignment)],
          (Selector.whole (.tracked 2)).value = a.target.value ∧
            a.target.path <+: (Selector.whole (.tracked 2)).path := by decide
      have hleaf : l.rules.IsLeaf (.whole (.tracked 2)) := by
        have hleaves : l.rules.leaves? (.tracked 2) = some [[]] := by
          rw [hchain.rules]
          cbv
        simp [LeafRules.IsLeaf, Selector.whole, hleaves]
      refine ⟨l, .tracked 2, rfl, hchains, hleaf, hcell, ?_, fun α => hchain.keeps hnot hcell⟩
      rwa [hchain.writes_iff rfl hleaf]

end FlowGraph

end SliceLineage
