import SliceLineage.Proofs.Build.Shape
import SliceLineage.Proofs.Lowering.Refinement

/-!
# Strands in order

Which strands a lowering draws, and in which order, follows from the edges of the rich graph alone:
edge by edge, and for each edge one strand for each of its chains. Only where several chains of an
edge have no operations do they share one empty edge.

* `keptChains`: the chains of an edge that get a strand.
* `putChain_drawn`: what putting one chain adds to the strands; `edges_drawn`: what lowering edges
  adds to them.
* `FlowGraph.exists_spun_in_order`: the strands of a lowering, with their edges and operations.
-/

namespace SliceLineage

/-- The chains that get a strand of their own. A chain without operations gets none if an empty edge
is present already. -/
def keptChains (present : Bool) : List (List Operation) → List (List Operation)
  | [] => []
  | chain :: rest =>
      if present && chain.isEmpty then keptChains present rest
      else chain :: keptChains (present || chain.isEmpty) rest

/-- What is known of a strand before it is drawn: its edge and its operations. -/
def Strand.label (st : Strand) : (PointId × Transition) × List Operation := (st.key, st.ops)

/-- There is a strand between the points that is an empty edge. -/
def hasEmptyEdge (drawn : List Strand) (p q : PointId) : Bool :=
  drawn.any fun st => decide (st.source = p ∧ st.edge.target = q ∧ st.ops = [.noop])

theorem hasEmptyEdge_iff {drawn : List Strand} {p q : PointId} : hasEmptyEdge drawn p q = true ↔
    ∃ st ∈ drawn, st.source = p ∧ st.edge.target = q ∧ st.ops = [.noop] := by
  simp [hasEmptyEdge]

theorem hasEmptyEdge_append (drawn new : List Strand) (p q : PointId) :
    hasEmptyEdge (drawn ++ new) p q = (hasEmptyEdge drawn p q || hasEmptyEdge new p q) :=
  List.any_append

theorem filled_eq_noop_iff {chain : List Operation} (h : .noop ∉ chain) :
    filled chain = [.noop] ↔ chain = [] := by
  cases chain with
  | nil => exact iff_of_true rfl rfl
  | cons op rest =>
      refine iff_of_false (fun hfilled => h ?_) (List.cons_ne_nil _ _)
      rw [show op :: rest = [.noop] from hfilled]
      exact List.mem_singleton.mpr rfl

theorem LeafRules.noop_not_mem_chain {r : LeafRules} {t : CellTable} {op : Operation}
    {outcome : List BoundAssignment} : .noop ∉ r.chain t op outcome := by
  intro h
  rcases mem_chain_cases h with ⟨_, -, _, -, hmove⟩ | ⟨_, _, -, hret⟩
  · cases hmove
  · cases hret

theorem keptChains_sublist (present : Bool) (chains : List (List Operation)) :
    (keptChains present chains).Sublist chains := by
  induction chains generalizing present with
  | nil => exact .slnil
  | cons chain rest ih =>
      rw [keptChains]
      split
      · exact (ih present).cons _
      · exact (ih _).cons_cons _

/-- Each chain is kept, or it has no operations and an empty edge is kept or present. -/
theorem mem_keptChains {chains : List (List Operation)} {chain : List Operation}
    (h : chain ∈ chains) : ∀ present : Bool, chain ∈ keptChains present chains ∨
      present = true ∧ chain = [] := by
  induction chains with
  | nil => cases h
  | cons first rest ih =>
      intro present
      rw [keptChains]
      by_cases hskip : (present && first.isEmpty) = true
      · rw [if_pos hskip]
        obtain ⟨rfl, hempty⟩ := Bool.and_eq_true_iff.mp hskip
        rcases List.mem_cons.mp h with rfl | h
        · exact Or.inr ⟨rfl, List.isEmpty_iff.mp hempty⟩
        · exact ih h true
      · rw [if_neg hskip]
        rcases List.mem_cons.mp h with rfl | h
        · exact Or.inl List.mem_cons_self
        · rcases ih h (present || first.isEmpty) with h | ⟨hpresent, rfl⟩
          · exact Or.inl (List.mem_cons_of_mem _ h)
          · rcases Bool.or_eq_true_iff.mp hpresent with hpresent | hempty
            · exact Or.inr ⟨hpresent, rfl⟩
            · rw [List.isEmpty_iff.mp hempty]
              exact Or.inl List.mem_cons_self

/-- Lists of chains that are empty at the same places keep the same places. -/
theorem keptChains_rel {R : List Operation → List Operation → Prop}
    (hR : ∀ c c', R c c' → c.isEmpty = c'.isEmpty) {chains chains' : List (List Operation)}
    (h : List.Forall₂ R chains chains') :
    ∀ present, List.Forall₂ R (keptChains present chains) (keptChains present chains') := by
  induction h with
  | nil => exact fun _ => .nil
  | cons hc _ ih =>
      intro present
      rw [keptChains, keptChains, hR _ _ hc]
      split
      · exact ih present
      · exact .cons hc (ih _)

namespace Lowering

variable {rules : LeafRules} {registry : Registry} {rich : FlowGraph}

/-- A chain without operations adds nothing if its edge is there. -/
theorem putChain_present {target stop : PointId} {s s' : Progress} (hne : s.cursor.current ≠ stop)
    (hmem : ⟨stop, .noop⟩ ∈ s.cursor.graph.successors s.cursor.current)
    (hrun : (putChain rich target stop []).run s = .ok ((), s')) :
    s' = { s with cursor := s.cursor.moveTo stop } := by
  simp only [putChain, run_atPoint_bind, hne] at hrun
  have hjoin : (join stop).run s = .ok ((), s') := hrun
  rcases hc : s.cursor.join stop with ⟨answer, c⟩
  rw [run_join hc] at hjoin
  cases answer with
  | error e => cases hjoin
  | ok _ =>
      cases hjoin
      obtain ⟨hcurrent, ⟨hgraph, -⟩ | ⟨-, -, hnot⟩⟩ := Cursor.join_cases hc
      · rw [Cursor.moveTo, ← hgraph, ← hcurrent]
      · exact absurd hmem hnot

/-- The empty edge of a strand is where it seems to be. -/
theorem Progress.Woven.mem_of_hasEmptyEdge {s : Progress} {drawn : List Strand}
    (hw : s.Woven drawn) {p q start stop : PointId} (hp : s.images.lookup p = some start)
    (hq : s.images.lookup q = some stop) (h : hasEmptyEdge drawn p q = true) :
    ⟨stop, .noop⟩ ∈ s.cursor.graph.successors start := by
  obtain ⟨st, hst, rfl, rfl, hops⟩ := hasEmptyEdge_iff.mp h
  have hrest : st.rest = [] := by
    simpa [Strand.ops, Strand.trace] using congrArg List.length hops
  have hop : st.first.op = .noop := by
    simpa [Strand.ops, Strand.trace, hrest] using hops
  obtain ⟨stop', hstop', hforced⟩ := (hw.holds st hst).forced
  obtain rfl : stop' = stop := Option.some.inj (hstop'.symm.trans hq)
  rw [hrest] at hforced
  have htarget : st.first.target = stop' := hforced
  rw [hw.heads _ _ hp, ← htarget, ← hop]
  exact List.mem_map_of_mem (List.mem_filter.mpr ⟨hst, by simp⟩)

/-- **Putting one chain adds one strand**, or none if the chain is empty and its edge is there. -/
theorem putChain_drawn {s s' : Progress} {drawn : List Strand} {p stop : PointId} {t : Transition}
    {chain : List Operation} (hs : s.Sound rules) (hw : s.Woven drawn) (hloop : p ≠ t.target)
    (hp : s.images.lookup p = some s.cursor.current)
    (hstop : s.images.lookup t.target = some stop)
    (hrun : (putChain rich t.target stop chain).run s = .ok ((), s')) :
    ∃ new, s'.Woven (drawn ++ new) ∧ new.map Strand.label =
      if hasEmptyEdge drawn p t.target && chain.isEmpty then [] else [((p, t), filled chain)] := by
  have hne : s.cursor.current ≠ stop := by
    rintro rfl
    exact hloop (hs.eq_of_image hp hstop)
  by_cases hskip : (hasEmptyEdge drawn p t.target && chain.isEmpty) = true
  · obtain ⟨hempty, hchain⟩ := Bool.and_eq_true_iff.mp hskip
    rw [List.isEmpty_iff.mp hchain] at hrun
    rw [putChain_present hne (hw.mem_of_hasEmptyEdge hp hstop hempty) hrun, if_pos hskip]
    refine ⟨[], ?_, rfl⟩
    rw [List.append_nil]
    exact hw.congr rfl rfl rfl
  · rw [if_neg hskip]
    rcases putChain_draws rich (hs.tidy hw ⟨p, hp⟩) (hs.images _ _ hstop) hrun with
      ⟨first, rest, hdraws, hops⟩ | ⟨rfl, -, hmem, -⟩
    · refine ⟨[⟨p, t, first, rest⟩], hw.draw hs hp hstop hdraws, ?_⟩
      rw [decide_eq_false hne, padded_false] at hops
      simp [Strand.label, Strand.key, Strand.ops, Strand.trace, ← hops]
    · have hempty := hasEmptyEdge_iff.mpr (hw.exists_noop hs hp hstop hmem)
      simp [hempty] at hskip

/-- The strand of a chain is an empty edge if the chain has no operations. -/
theorem hasEmptyEdge_of_label {new : List Strand} {p : PointId} {t : Transition}
    {chain : List Operation} (hnoop : .noop ∉ chain)
    (h : new.map Strand.label = [((p, t), filled chain)]) :
    hasEmptyEdge new p t.target = chain.isEmpty := by
  obtain ⟨st, rfl, hst⟩ := List.map_eq_singleton_iff.mp h
  obtain ⟨hkey, hops⟩ := Prod.mk.inj hst
  obtain ⟨hsource, hedge⟩ := Prod.mk.inj hkey
  rw [Bool.eq_iff_iff, hasEmptyEdge_iff, List.isEmpty_iff, ← filled_eq_noop_iff hnoop, ← hops]
  simp [hsource, hedge]

/-- Putting the chains of an edge adds a strand for each of them that is kept. -/
theorem putChains_drawn {p start stop : PointId} {t : Transition} (hloop : p ≠ t.target)
    {chains : List (List Operation)} :
    ∀ {s s' : Progress} {drawn : List Strand}, s.Sound rules → s.Woven drawn →
      s.images.lookup p = some start → s.images.lookup t.target = some stop →
      (∀ chain ∈ chains, ∀ op ∈ chain, op.isPrimitive = true) →
      (∀ chain ∈ chains, .noop ∉ chain) →
      (putChains rich start stop t.target chains).run s = .ok ((), s') →
      ∃ new, s'.Woven (drawn ++ new) ∧ new.map Strand.label =
        (keptChains (hasEmptyEdge drawn p t.target) chains).map fun c => ((p, t), filled c) := by
  induction chains with
  | nil =>
      intro s s' drawn _ hw _ _ _ _ hrun
      cases hrun
      exact ⟨[], by simpa using hw, rfl⟩
  | cons chain rest ih =>
      intro s s' drawn hs hw hp hstop hops hnoop hrun
      obtain ⟨s₁, hmove, hs₁, hg₁, -, hcurrent⟩ := moveTo_spec hs start
      have hw₁ : s₁.Woven drawn := by
        cases hmove
        exact hw.congr rfl rfl rfl
      have hp₁ := hg₁.images _ _ hp
      have hstop₁ := hg₁.images _ _ hstop
      obtain ⟨k, s₂, hput, -⟩ := putChain_spec rich hs₁ (hs₁.images _ _ hstop₁)
        (hops chain List.mem_cons_self)
      rw [putChains, run_bind_of_ok hmove, run_bind_of_ok hput.runs] at hrun
      obtain ⟨new, hw₂, hnew⟩ :=
        putChain_drawn hs₁ hw₁ hloop (hcurrent ▸ hp₁) hstop₁ hput.runs
      obtain ⟨more, hw', hmore⟩ := ih hput.sound hw₂ (hput.grows.images _ _ hp₁)
        (hput.grows.images _ _ hstop₁) (fun c hc => hops c (List.mem_cons_of_mem _ hc))
        (fun c hc => hnoop c (List.mem_cons_of_mem _ hc)) hrun
      refine ⟨new ++ more, List.append_assoc drawn new more ▸ hw', ?_⟩
      rw [List.map_append, hmore, hasEmptyEdge_append, keptChains]
      by_cases hskip : (hasEmptyEdge drawn p t.target && chain.isEmpty) = true
      · rw [if_pos hskip] at hnew ⊢
        obtain rfl := List.map_eq_nil_iff.mp hnew
        rw [show hasEmptyEdge [] p t.target = false from rfl, Bool.or_false]
        rfl
      · rw [if_neg hskip] at hnew ⊢
        rw [hnew, hasEmptyEdge_of_label (hnoop chain List.mem_cons_self) hnew]
        rfl

theorem edge_drawn {e : PointId × Transition} {s s' : Progress} {drawn : List Strand}
    (hs : s.Sound rules) (hw : s.Woven drawn) (hop : e.2.op.isMove = false)
    (hc : rules.Covers registry e.2.op) (hloop : e.1 ≠ e.2.target)
    (hapart : ∀ st ∈ drawn, Apart st.key e)
    (hrun : (edge registry rules rich e).run s = .ok ((), s')) :
    ∃ new, s'.Woven (drawn ++ new) ∧ new.map Strand.label =
      (keptChains false ((registry.outcomes e.2.op).map (rules.chain s'.cells e.2.op))).map
        fun c => (e, filled c) := by
  obtain ⟨start, s₁, hrun₁, hs₁, hg₁, hstart⟩ := image_spec rich hs e.1
  obtain ⟨stop, s₂, hrun₂, hs₂, hg₂, hstop⟩ := image_spec rich hs₁ e.2.target
  obtain ⟨s₃, hrun₃, hs₃, hg₃, -⟩ := chains_spec hs₂ hop hc
  have hw₃ : s₃.Woven drawn :=
    chains_woven (image_woven rich hs₁ (image_woven rich hs hw hrun₁) hrun₂) hrun₃
  have hchains : ∀ chain ∈ (registry.outcomes e.2.op).map (rules.chain s₃.cells e.2.op),
      (∀ op ∈ chain, op.isPrimitive = true) ∧ .noop ∉ chain := by
    intro chain hchain
    obtain ⟨outcome, -, rfl⟩ := List.mem_map.mp hchain
    exact ⟨fun op => LeafRules.isPrimitive_of_mem_chain, LeafRules.noop_not_mem_chain⟩
  have hnone : hasEmptyEdge drawn e.1 e.2.target = false := by
    rw [Bool.eq_false_iff]
    intro hempty
    obtain ⟨st, hst, hsource, htarget, -⟩ := hasEmptyEdge_iff.mp hempty
    exact hapart st hst ⟨hsource, htarget⟩
  have hstart₃ := hg₃.images _ _ (hg₂.images _ _ hstart)
  have hstop₃ := hg₃.images _ _ hstop
  obtain ⟨s₄, hrun₄, -, -, hcells, -⟩ := putChains_spec rich start hs₃ (hs₃.images _ _ hstop₃)
    fun chain hchain => (hchains chain hchain).1
  rw [edge, run_bind_of_ok hrun₁, run_bind_of_ok hrun₂, run_bind_of_ok hrun₃] at hrun
  cases hrun₄.symm.trans hrun
  rw [hcells, ← hnone]
  exact putChains_drawn hloop hs₃ hw₃ hstart₃ hstop₃ (fun chain hchain => (hchains chain hchain).1)
    (fun chain hchain => (hchains chain hchain).2) hrun

/-- **Lowering edges adds their strands in order.** -/
theorem edges_drawn {es : List (PointId × Transition)} :
    ∀ {s s' : Progress} {drawn : List Strand}, s.Sound rules → s.Woven drawn →
      (∀ e ∈ es, e.2.op.isMove = false ∧ rules.Covers registry e.2.op ∧ e.1 ≠ e.2.target) →
      (∀ st ∈ drawn, ∀ e ∈ es, Apart st.key e) → es.Pairwise Apart →
      (edges registry rules rich es).run s = .ok ((), s') →
      ∃ new, s'.Woven (drawn ++ new) ∧ new.map Strand.label = es.flatMap fun e =>
        (keptChains false ((registry.outcomes e.2.op).map (rules.chain s'.cells e.2.op))).map
          fun c => (e, filled c) := by
  induction es with
  | nil =>
      intro s s' drawn _ hw _ _ _ hrun
      cases hrun
      exact ⟨[], by simpa using hw, rfl⟩
  | cons e rest ih =>
      intro s s' drawn hs hw hes hapart hpairwise hrun
      obtain ⟨hop, hc, hloop⟩ := hes e List.mem_cons_self
      obtain ⟨hfirst, hlater⟩ := List.pairwise_cons.mp hpairwise
      obtain ⟨s₁, hrun₁, hs₁, -, hcarries⟩ := edge_spec rich e.1 hs hop hc
      have hrest := fun e he => hes e (List.mem_cons_of_mem _ he)
      rw [edges, run_bind_of_ok hrun₁] at hrun
      obtain ⟨new, hw₁, hnew⟩ := edge_drawn hs hw hop hc hloop
        (fun st hst => hapart st hst e List.mem_cons_self) hrun₁
      have hkeys : ∀ st ∈ new, st.key = e := by
        intro st hst
        have hlabel : st.label ∈ new.map Strand.label := List.mem_map_of_mem hst
        rw [hnew] at hlabel
        obtain ⟨c, -, hc⟩ := List.mem_map.mp hlabel
        exact (congrArg Prod.fst hc).symm
      have hapart₁ : ∀ st ∈ drawn ++ new, ∀ e' ∈ rest, Apart st.key e' := by
        intro st hst e' he'
        rcases List.mem_append.mp hst with hst | hst
        · exact hapart st hst e' (List.mem_cons_of_mem _ he')
        · rw [hkeys st hst]
          exact hfirst e' he'
      obtain ⟨more, hw', hmore⟩ := ih hs₁ hw₁ hrest hapart₁ hlater hrun
      obtain ⟨hs', hg⟩ : s'.Sound rules ∧ s₁.Grows s' := by
        rcases edges_spec rich hs₁ fun e he => (hrest e he).2.1 with
          ⟨s₂, hrun₂, hs₂, hg, -⟩ | ⟨e, he, hmove, -⟩
        · cases hrun₂.symm.trans hrun
          exact ⟨hs₂, hg⟩
        · rw [(hrest e he).1] at hmove
          cases hmove
      have hstable := (CellM.yields_chains hop hc.fits hc.returns).stable s₁.cells s'.cells hs₁.cells
        hs'.cells hg.cells hcarries.knows
      refine ⟨new ++ more, List.append_assoc drawn new more ▸ hw', ?_⟩
      rw [List.map_append, hnew, hmore, List.flatMap_cons, hstable]

end Lowering

namespace FlowGraph

variable {registry : Registry} {depth : Nat} {rich : FlowGraph}

/-- The labels of the strands of a graph that was lowered. -/
def strandLabels (registry : Registry) (rules : LeafRules) (t : CellTable) (rich : FlowGraph) :
    List ((PointId × Transition) × List Operation) :=
  rich.reachableEdges.flatMap fun e =>
    (keptChains false ((registry.outcomes e.2.op).map (rules.chain t e.2.op))).map
      fun c => (e, filled c)

/-- Strands with the right labels are the strands of the reachable edges. -/
theorem Wired.weaves (hg : rich.Wired) {s : Lowering.Progress} {rules : LeafRules}
    {drawn : List Strand}
    (h : drawn.map Strand.label = rich.strandLabels registry rules s.cells) :
    s.Weaves registry rules rich.reachableEdges [] drawn where
  only st hst := by
    have hlabel : st.label ∈ drawn.map Strand.label := List.mem_map_of_mem hst
    rw [h] at hlabel
    obtain ⟨e, he, hmem⟩ := List.mem_flatMap.mp hlabel
    obtain ⟨chain, hchain, hst⟩ := List.mem_map.mp hmem
    obtain ⟨rfl, hops⟩ := Prod.mk.inj hst
    obtain ⟨outcome, ho, rfl⟩ := List.mem_map.mp ((keptChains_sublist _ _).subset hchain)
    refine ⟨he, outcome, ho, rfl, rfl, ?_⟩
    rw [decide_eq_false (hg.loopless _ _ (mem_reachableEdges_iff.mp he).2).symm, padded_false]
    exact hops.symm
  all e he outcome ho := by
    have hloop : decide (e.1 = e.2.target) = false :=
      decide_eq_false (hg.loopless _ _ (mem_reachableEdges_iff.mp he).2).symm
    have hkept := (mem_keptChains
      (List.mem_map_of_mem (f := rules.chain s.cells e.2.op) ho) false).resolve_right (by simp)
    have hlabel : (e, filled (rules.chain s.cells e.2.op outcome)) ∈ drawn.map Strand.label := by
      rw [h]
      exact List.mem_flatMap.mpr ⟨e, he, List.mem_map_of_mem hkept⟩
    obtain ⟨st, hst, hst'⟩ := List.mem_map.mp hlabel
    obtain ⟨hkey, hops⟩ := Prod.mk.inj hst'
    refine ⟨st, hst, congrArg Prod.fst hkey, congrArg (·.2.target) hkey, ?_⟩
    rw [hloop, padded_false]
    exact hops
  single hone _ := by
    have hkeys : (drawn.map Strand.label).map Prod.fst = rich.reachableEdges := by
      rw [h, strandLabels, List.map_flatMap]
      conv_rhs => rw [← List.flatMap_singleton' rich.reachableEdges]
      refine List.flatMap_congr fun e he => ?_
      obtain ⟨outcome, ho⟩ := List.length_eq_one_iff.mp (hone e he)
      simp [ho, keptChains]
    rwa [List.map_map] at hkeys

/-- **The primitive graph of a wired graph consists of the strands of its edges, in order.** -/
theorem exists_spun_in_order (hg : rich.Wired) {l : Lowering}
    (h : rich.lower registry depth = .ok l) :
    ∃ s drawn, Spun registry depth rich s drawn ∧
      l = ⟨s.cursor.graph, s.origins, s.cells, leafRules depth (rich.assignments registry)⟩ ∧
      drawn.map Strand.label =
        rich.strandLabels registry (leafRules depth (rich.assignments registry)) s.cells := by
  rcases rich.lower_cases registry depth with ⟨s, hl, hs⟩ | ⟨p, t, -, -, -, herror⟩
  · have hes : ∀ e ∈ rich.reachableEdges, e.2.op.isMove = false ∧
        (leafRules depth (rich.assignments registry)).Covers registry e.2.op ∧
        e.1 ≠ e.2.target := by
      intro e he
      obtain ⟨hp, ht⟩ := mem_reachableEdges_iff.mp he
      exact ⟨(hs.carries _ hp _ ht).1, covers_of_mem_successors registry depth ht,
        (hg.loopless _ _ ht).symm⟩
    obtain ⟨drawn, hw, hlabels⟩ := Lowering.edges_drawn
      (Lowering.Progress.sound_start _ rich) (Lowering.woven_start rich) hes (by simp)
      hg.reachableEdges_apart hs.runs
    exact ⟨s, drawn, ⟨hs, hw, hg.weaves hlabels⟩, Except.ok.inj (h.symm.trans hl), hlabels⟩
  · rw [h] at herror
    cases herror

end FlowGraph

end SliceLineage
