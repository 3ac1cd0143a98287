import Mathlib
import SliceLineage.Proofs.Build.DeadCode
import SliceLineage.Proofs.Lowering.SplitCells
import SliceLineage.Proofs.Lowering.StrandOrder

/-!
# Two graphs with the same live part

Take two rich graphs that are the same where they can be reached. The one may perform more
assignments elsewhere, so their leaf rules differ. If the assignments of the live part are split
evenly, the lowered graphs have the same strands with moves that go along each other, and the same
traces in the same order.

* `FlowGraph.liveAssignments`: the assignments on edges that can be reached.
* `EvenlySplitBy`: these are split evenly by the rules of the other graph.
* `Twins`: the two graphs and their lowerings, with strands that correspond one to one and in order;
  `SameLive.exists_twins`: this is what lowering leads to.
* `Twins.continuations`, `Twins.traces`: so do their traces.
-/

namespace SliceLineage

/-! ## Chains under two sets of rules -/

theorem LeafRules.leafMoves_eq_nil_iff {r : LeafRules} {a : BoundAssignment} (h : r.Fits a) :
    r.leafMoves a = [] ↔ a.source.isBlank = true ∧ a.target.isBlank = true := by
  have hsource : a.source.isBlank = false → r.below a.source ≠ [] := by
    intro hb hnil
    obtain ⟨x, hx⟩ := h.source hb
    rw [hnil] at hx
    cases hx
  have htarget : a.target.isBlank = false → r.below a.target ≠ [] := by
    intro hb hnil
    obtain ⟨x, hx⟩ := h.target hb
    rw [hnil] at hx
    cases hx
  unfold leafMoves
  cases hs : a.source.isBlank <;> cases ht : a.target.isBlank
  · have hsuffixes : r.suffixes a.target ≠ [] := by
      intro hnil
      refine htarget ht ?_
      rw [below_eq, hnil, List.map_nil]
    simp [hsuffixes]
  · simp [hsource hs]
  · simp [htarget ht]
  · simp

/-- Whether a chain has operations does not depend on the rules. -/
theorem LeafRules.chain_eq_nil_iff {r r' : LeafRules} {t t' : CellTable} {op : Operation}
    {outcome : List BoundAssignment} (h : ∀ a ∈ outcome, r.Fits a)
    (h' : ∀ a ∈ outcome, r'.Fits a) :
    r.chain t op outcome = [] ↔ r'.chain t' op outcome = [] := by
  have hclosing : r.closing t op = [] ↔ r'.closing t' op = [] := by
    cases op <;> simp [closing]
  have hmoves : outcome.flatMap r.leafMoves = [] ↔ outcome.flatMap r'.leafMoves = [] := by
    simp only [List.flatMap_eq_nil_iff]
    refine forall₂_congr fun a ha => ?_
    rw [leafMoves_eq_nil_iff (h a ha), leafMoves_eq_nil_iff (h' a ha)]
  simp [chain, hclosing, hmoves]

theorem AlongAll.filled {ι : Type} {E : ι → ValueId → ValueId → Prop} {c₀ c : List Operation}
    (h : AlongAll E c₀ c) (hempty : c₀.isEmpty = c.isEmpty) :
    AlongAll E (filled c₀) (filled c) := by
  cases c₀ with
  | nil =>
      obtain rfl : c = [] := List.isEmpty_iff.mp hempty.symm
      exact .of_not_isMove (by simp [SliceLineage.filled, Operation.isMove])
        (by simp [SliceLineage.filled, Operation.isMove])
  | cons op₀ rest₀ =>
      cases c with
      | nil => cases hempty
      | cons op rest => exact h

/-! ## Twins -/

/-- The assignments on the edges that can be reached. -/
def FlowGraph.liveAssignments (registry : Registry) (g : FlowGraph) : List BoundAssignment :=
  g.reachableEdges.flatMap fun e => (registry.outcomes e.2.op).flatten

theorem FlowGraph.mem_liveAssignments {registry : Registry} {g : FlowGraph} {p : PointId}
    (hp : g.Reaches p) {t : Transition} (ht : t ∈ g.successors p) {outcome : List BoundAssignment}
    (ho : outcome ∈ registry.outcomes t.op) {a : BoundAssignment} (ha : a ∈ outcome) :
    a ∈ g.liveAssignments registry :=
  List.mem_flatMap.mpr ⟨(p, t), mem_reachableEdges_iff.mpr ⟨hp, ht⟩,
    List.mem_flatten.mpr ⟨outcome, ho, ha⟩⟩

theorem FlowGraph.SameLive.reachableEdges_eq {g₀ g : FlowGraph} (h : g₀.SameLive g) :
    g.reachableEdges = g₀.reachableEdges := by
  unfold reachableEdges
  rw [h.reachable_eq]
  refine List.flatMap_congr fun p hp => ?_
  rw [h.edges p (mem_reachable_iff.mp hp)]

/-- Strands of two lowerings that stand for the same edge, with operations that go along each
other. -/
structure Strand.Twin (t₀ t : CellTable) (st₀ st : Strand) : Prop where
  key : st₀.key = st.key
  ops : AlongAll (t₀.Part t) st₀.ops st.ops

namespace FlowGraph

variable {registry : Registry} {depth limit : Nat} {g₀ g : FlowGraph}
  {s₀ s : Lowering.Progress} {drawn₀ drawn : List Strand}

/-- The live assignments of `g₀` are split evenly by the rules of `g`. -/
def EvenlySplitBy (registry : Registry) (depth : Nat) (g₀ g : FlowGraph) : Prop :=
  ∀ a ∈ g₀.liveAssignments registry, SplitsEvenly (leafRules depth (g₀.assignments registry))
    (leafRules depth (g.assignments registry)) a

/-- Whether the live assignments of `g₀` are split evenly by the rules of `g`. -/
def evenlySplitBy (registry : Registry) (depth : Nat) (g₀ g : FlowGraph) : Bool :=
  (g₀.liveAssignments registry).all ((leafRules depth (g₀.assignments registry)).splitsEvenly
    (leafRules depth (g.assignments registry)))

theorem evenlySplitBy_iff :
    evenlySplitBy registry depth g₀ g = true ↔ EvenlySplitBy registry depth g₀ g := by
  simp only [evenlySplitBy, List.all_eq_true, LeafRules.splitsEvenly_iff, EvenlySplitBy]

instance (registry : Registry) (depth : Nat) (g₀ g : FlowGraph) :
    Decidable (EvenlySplitBy registry depth g₀ g) := decidable_of_iff _ evenlySplitBy_iff

/-- Two wired graphs with the same live part, lowered to strands that correspond. -/
structure Twins (registry : Registry) (depth : Nat) (g₀ g : FlowGraph) (s₀ s : Lowering.Progress)
    (drawn₀ drawn : List Strand) : Prop where
  live : g₀.SameLive g
  wired₀ : g₀.Wired
  wired : g.Wired
  spun₀ : Spun registry depth g₀ s₀ drawn₀
  spun : Spun registry depth g s drawn
  strands : List.Forall₂ (Strand.Twin s₀.cells s.cells) drawn₀ drawn

/-- The chains of a live edge go along each other, and are empty together. -/
theorem SameLive.chains (hlive : g₀.SameLive g) (h₀ : Lowered registry depth g₀ s₀)
    (h : Lowered registry depth g s) (heven : EvenlySplitBy registry depth g₀ g) {p : PointId}
    (hp : g₀.Reaches p) {t : Transition} (ht : t ∈ g₀.successors p)
    {outcome : List BoundAssignment} (ho : outcome ∈ registry.outcomes t.op) :
    let chain₀ := (leafRules depth (g₀.assignments registry)).chain s₀.cells t.op outcome
    let chain := (leafRules depth (g.assignments registry)).chain s.cells t.op outcome
    AlongAll (s₀.cells.Part s.cells) chain₀ chain ∧ chain₀.isEmpty = chain.isEmpty := by
  have ht' : t ∈ g.successors p := hlive.edges p hp ▸ ht
  have hp' : g.Reaches p := hlive.reaches_iff.mpr hp
  constructor
  · exact alongAll_chain t.op (fun a ha => hlive.grows.mem_assignments ha)
      (fun a ha => mem_assignments_of_outcome ht ho ha)
      (fun a ha => heven a (mem_liveAssignments hp ht ho ha))
      (fun a ha => h₀.serves hp ht ho ha) fun a ha => h.serves hp' ht' ho ha
  · rw [Bool.eq_iff_iff, List.isEmpty_iff, List.isEmpty_iff]
    exact LeafRules.chain_eq_nil_iff
      (fun a ha => LeafRules.fits_of_mem (mem_assignments_of_outcome ht ho ha))
      fun a ha => LeafRules.fits_of_mem (mem_assignments_of_outcome ht' ho ha)

/-- **Graphs with the same live part are lowered to strands that correspond**, in the same order. -/
theorem SameLive.exists_twins (hlive : g₀.SameLive g) (hg₀ : g₀.Wired) (hg : g.Wired)
    {l₀ l : Lowering} (hl₀ : g₀.lower registry depth = .ok l₀)
    (hl : g.lower registry depth = .ok l) (heven : EvenlySplitBy registry depth g₀ g) :
    ∃ s₀ s drawn₀ drawn, Twins registry depth g₀ g s₀ s drawn₀ drawn ∧
      l₀ = s₀.lowering (leafRules depth (g₀.assignments registry)) ∧
      l = s.lowering (leafRules depth (g.assignments registry)) := by
  obtain ⟨s₀, drawn₀, h₀, hs₀, hlabels₀⟩ := exists_spun_in_order hg₀ hl₀
  obtain ⟨s, drawn, h, hs, hlabels⟩ := exists_spun_in_order hg hl
  refine ⟨s₀, s, drawn₀, drawn, ⟨hlive, hg₀, hg, h₀, h, ?_⟩, hs₀, hs⟩
  have hall : List.Forall₂ (fun x₀ x => x₀.1 = x.1 ∧ AlongAll (s₀.cells.Part s.cells) x₀.2 x.2)
      (drawn₀.map Strand.label) (drawn.map Strand.label) := by
    rw [hlabels₀, hlabels, strandLabels, strandLabels, hlive.reachableEdges_eq]
    refine List.rel_flatMap (R := fun e e' => e = e' ∧ e ∈ g₀.reachableEdges)
      (List.forall₂_same.mpr fun e he => ⟨rfl, he⟩) ?_
    rintro e _ ⟨rfl, he⟩
    obtain ⟨hp, ht⟩ := mem_reachableEdges_iff.mp he
    rw [List.forall₂_map_left_iff, List.forall₂_map_right_iff]
    refine (keptChains_rel (R := fun c₀ c => AlongAll (s₀.cells.Part s.cells) c₀ c ∧
      c₀.isEmpty = c.isEmpty) (fun _ _ hc => hc.2) ?_ false).imp
      fun c₀ c hc => ⟨rfl, hc.1.filled hc.2⟩
    rw [List.forall₂_map_left_iff, List.forall₂_map_right_iff]
    exact List.forall₂_same.mpr fun outcome ho =>
      hlive.chains h₀.lowered h.lowered heven hp ht ho
  rw [List.forall₂_map_left_iff, List.forall₂_map_right_iff] at hall
  exact hall.imp fun st₀ st hst => ⟨hst.1, hst.2⟩

end FlowGraph

/-! ## Traces -/

/-- The two traces go along strands of the two lowerings that correspond. -/
inductive Strand.Beside (R : Strand → Strand → Prop) : Trace → Trace → Prop
  | nil : Beside R [] []
  | cons {st₀ st : Strand} {later₀ later : Trace} (h : R st₀ st) (rest : Beside R later₀ later) :
      Beside R (st₀.trace ++ later₀) (st.trace ++ later)

namespace FlowGraph

variable {registry : Registry} {depth limit : Nat} {g₀ g : FlowGraph}
  {s₀ s : Lowering.Progress} {drawn₀ drawn : List Strand}

/-- Strands of the two lowerings that correspond. -/
def Corresponds (s₀ s : Lowering.Progress) (drawn₀ drawn : List Strand) (st₀ st : Strand) : Prop :=
  st₀ ∈ drawn₀ ∧ st ∈ drawn ∧ st₀.Twin s₀.cells s.cells st

theorem Twins.corresponds (h : Twins registry depth g₀ g s₀ s drawn₀ drawn) :
    List.Forall₂ (Corresponds s₀ s drawn₀ drawn) drawn₀ drawn := by
  have hright : List.Forall₂ (fun st st₀ => st ∈ drawn ∧ st₀.Twin s₀.cells s.cells st) drawn
      drawn₀ := (List.forall₂_and_left _ _).mpr ⟨fun _ hst => hst, h.strands.flip⟩
  exact (List.forall₂_and_left _ _).mpr ⟨fun _ hst => hst, hright.flip⟩

/-- The strands that two paths may still take correspond. -/
theorem Twins.openStrands (h : Twins registry depth g₀ g s₀ s drawn₀ drawn) (limit : Nat)
    (path : Trace) (p : PointId) : List.Forall₂ (Corresponds s₀ s drawn₀ drawn)
      (openStrands limit drawn₀ path p) (FlowGraph.openStrands limit drawn path p) := by
  have hkey : ∀ {st₀ st}, Corresponds s₀ s drawn₀ drawn st₀ st → st₀.source = st.source ∧
      st₀.edge = st.edge := fun hst => Prod.mk.inj hst.2.2.key
  refine List.rel_filter (fun st₀ st hst => ?_) (List.rel_filter (fun st₀ st hst => ?_)
    h.corresponds)
  · simp only [(hkey hst).2]
  · simp only [(hkey hst).1]

/-- **The traces of the two primitive graphs correspond, in order.** The induction is on what the
rich path may still enter. -/
theorem Twins.continuations (h : Twins registry depth g₀ g s₀ s drawn₀ drawn)
    {path low₀ low : Trace} {p q₀ q : PointId} (hw₀ : g₀.Walked limit path p)
    (hw : g.Walked limit path p) (ht₀ : s₀.Tracks path low₀) (ht : s.Tracks path low)
    (hq₀ : s₀.images.lookup p = some q₀) (hq : s.images.lookup p = some q) :
    List.Forall₂ (Strand.Beside (Corresponds s₀ s drawn₀ drawn))
      (s₀.cursor.graph.continuations limit low₀ q₀) (s.cursor.graph.continuations limit low q) := by
  have hopen := h.openStrands limit path p
  rw [h.spun₀.continuations_eq h.wired₀ hw₀ ht₀ hq₀, h.spun.continuations_eq h.wired hw ht hq]
  by_cases hnone : FlowGraph.openStrands limit drawn₀ path p = []
  · have hnone' : FlowGraph.openStrands limit drawn path p = [] := by
      rw [hnone] at hopen
      exact List.forall₂_nil_left_iff.mp hopen
    rw [hnone, hnone']
    exact .cons .nil .nil
  · have hnone' : FlowGraph.openStrands limit drawn path p ≠ [] := by
      intro hnil
      rw [hnil] at hopen
      exact hnone (List.forall₂_nil_right_iff.mp hopen)
    rw [if_neg (by simpa using hnone), if_neg (by simpa using hnone')]
    refine List.rel_flatMap (R := fun st₀ st => st₀ ∈ FlowGraph.openStrands limit drawn₀ path p ∧
      Corresponds s₀ s drawn₀ drawn st₀ st)
      ((List.forall₂_and_left _ _).mpr ⟨fun _ hst => hst, hopen⟩) ?_
    rintro st₀ st ⟨hopen₀, hst⟩
    obtain ⟨hst₀, rfl, hlt₀⟩ := mem_openStrands.mp hopen₀
    obtain ⟨hsource, hedge⟩ := Prod.mk.inj hst.2.2.key
    have hlt : path.entries st.edge.target < limit := hedge ▸ hlt₀
    have hholds₀ := h.spun₀.woven.holds st₀ hst₀
    have hholds := h.spun.woven.holds st hst.2.1
    have hmem₀ := (h.spun₀.mem_successors hst₀).2
    have hmem := (h.spun.mem_successors hst.2.1).2
    obtain ⟨stop₀, hstop₀, -⟩ := hholds₀.forced
    obtain ⟨stop, hstop, -⟩ := hholds.forced
    have hw₀' := hw₀.step h.wired₀ hmem₀ hlt₀
    have hw' : g.Walked limit (st₀.edge :: path) st₀.edge.target := by
      rw [hsource] at hw
      rw [hedge]
      exact hw.step h.wired hmem hlt
    have ht₀' := ht₀.step h.spun₀.lowered.sound hholds₀
    have ht' := ht.step h.spun.lowered.sound hholds
    rw [← hedge] at ht' hstop
    have hlater := h.continuations hw₀' hw' ht₀' ht' hstop₀ hstop
    show List.Forall₂ _ (List.map _ _) (List.map _ _)
    rw [ht₀.continuations hholds₀ hlt₀ hstop₀, ht.continuations hholds hlt (hedge ▸ hstop),
      List.forall₂_map_left_iff, List.forall₂_map_right_iff]
    exact hlater.imp fun later₀ later hbeside => .cons hst hbeside
termination_by path.room limit g₀.entryPoints
decreasing_by exact room_lt_of_mem_admitted (List.mem_filter.mpr ⟨hmem₀, decide_eq_true hlt₀⟩)

/-- The traces under a limit and a budget. -/
theorem Twins.traces (h : Twins registry depth g₀ g s₀ s drawn₀ drawn) (limit : Nat)
    (budget : Option Nat) : List.Forall₂ (Strand.Beside (Corresponds s₀ s drawn₀ drawn))
      (s₀.cursor.graph.traces limit budget) (s.cursor.graph.traces limit budget) := by
  have hroot : g.root = g₀.root := h.live.grows.root
  have hwalked : g.Walked limit [] g₀.root := hroot ▸ g.walked_root limit
  have hall : List.Forall₂ (Strand.Beside (Corresponds s₀ s drawn₀ drawn))
      (s₀.cursor.graph.allTraces limit) (s.cursor.graph.allTraces limit) :=
    h.continuations (g₀.walked_root limit) hwalked s₀.tracks_nil s.tracks_nil
      h.spun₀.lowered.image_root (hroot ▸ h.spun.lowered.image_root)
  rw [traces_eq, traces_eq]
  cases budget with
  | none => exact hall
  | some n => exact List.forall₂_take n hall

end FlowGraph

end SliceLineage
