import Mathlib
import SliceLineage.Proofs.Check.FirstConflicts
import SliceLineage.Proofs.Check.History
import SliceLineage.Proofs.Followed
import SliceLineage.Proofs.Lowering.DataFlow
import SliceLineage.Proofs.Lowering.Strands

/-!
# The growths behind the warnings

A warning is about a growth that the source text performs. The conflict that it stands for was met
at a move to the next generation; that move lies on a strand of the primitive graph, and only a call
whose summary grows one of its inputs has such a strand.

* `mem_conflicts_iff`: the conflicts along a trace, by the transitions that they are met at.
* `Summary.Grows`: a summary makes the next generation of an input region.
* `Registry.grows_of_mem_outcomes`: an assignment to the next generation belongs to a call with such
  a summary, and reads one of its arguments.
* `warnings_point_at_growths`: every warning points at such a call.
-/

namespace SliceLineage

/-- The conflicts along a primitive trace, by the transitions that they are met at. -/
theorem mem_conflicts_iff {c : Conflict} {trace : Trace} :
    ∀ {l : Ledger} {h : History} {cs : List Conflict}, l.Records h →
      (∀ t ∈ trace, t.op.isPrimitive) → l.conflicts trace = .ok cs →
      (c ∈ cs ↔ ∃ before t after, trace = before ++ t :: after ∧
        (before.foldl History.extend h).Repeats t c) := by
  induction trace with
  | nil =>
      intro l h cs _ _ hcs
      cases hcs
      simp
  | cons t rest ih =>
      intro l h cs hr hp hcs
      obtain ⟨found, l', hstep, hr', hiff⟩ := Ledger.step_records hr (hp t List.mem_cons_self)
      obtain ⟨_, _, later, hstep', hlater, rfl⟩ := Ledger.exists_of_conflicts_cons hcs
      cases hstep.symm.trans hstep'
      rw [List.mem_append, Option.mem_toList, hiff c,
        ih hr' (fun u hu => hp u (List.mem_cons_of_mem _ hu)) hlater]
      constructor
      · rintro (hfirst | ⟨before, u, after, rfl, hrepeats⟩)
        · exact ⟨[], t, rest, rfl, hfirst⟩
        · exact ⟨t :: before, u, after, rfl, hrepeats⟩
      · rintro ⟨before, u, after, hsplit, hrepeats⟩
        cases before with
        | nil =>
            obtain ⟨rfl, rfl⟩ := List.cons.inj hsplit
            exact Or.inl hrepeats
        | cons v before =>
            obtain ⟨rfl, rfl⟩ := List.cons.inj hsplit
            exact Or.inr ⟨before, u, after, rfl, hrepeats⟩

/-! ## What a call grows -/

namespace Composition

/-- What a region of a composition is taken from occurs in the composition. -/
theorem exists_embed_of_mem_selectPath {path : FieldPath} {e : Embed}
    (hb : e.selector.isBlank = false) : ∀ {c : Composition}, e ∈ (c.selectPath path).embeds →
      ∃ e₀ ∈ c.embeds, e₀.selector.value = e.selector.value := by
  induction path with
  | nil => exact fun h => ⟨e, h, rfl⟩
  | cons name rest ih =>
      intro c h
      obtain ⟨e₁, he₁, hvalue₁⟩ := ih (c := c.select name) h
      have hb₁ : e₁.selector.isBlank = false := by
        rw [Selector.isBlank, hvalue₁]
        exact hb
      obtain ⟨e₀, he₀, hvalue₀⟩ := exists_embed_of_mem_select he₁ hb₁
      exact ⟨e₀, he₀, hvalue₀.trans hvalue₁⟩

end Composition

/-- In one of its outcomes the summary makes an output of the next generation of the declared input
region `ref`. -/
def Summary.Grows (s : Summary) (ref : InputRef) : Prop :=
  (s.inputPath? ref).isSome ∧ ∃ outcome ∈ s.outcomes, ∃ slot ∈ outcome.outputs,
    ∃ c ∈ slot.components, c.step = .next ∧ c.source = some ref

/-- The operation calls a function whose summary grows a region of an argument, and that argument is
composed of a region of the followed value `v`, among others. -/
def Registry.Grows (registry : Registry) (op : Operation) (v : ValueId) : Prop :=
  ∃ func inputs outputs, op = .call func inputs outputs ∧
    ∃ summary, registry.get? func = some summary ∧
      ∃ ref, summary.Grows ref ∧ ∃ input, inputs[ref.arg.toNat]? = some input ∧
        ∃ e ∈ input.embeds, e.selector.isBlank = false ∧ e.selector.value = v

/-- An assignment to an output that does not come from blank reads the argument that the component
refers to. -/
theorem Summary.exists_source_of_mem_bindComponent {s : Summary} {args : List Composition}
    {output : ValueId} {c : OutputComponent} {a : BoundAssignment}
    (ha : a ∈ s.bindComponent args output c) (hb : a.source.isBlank = false) :
    a.step = c.step ∧ ∃ ref, c.source = some ref ∧ (s.inputPath? ref).isSome ∧
      ∃ input, args[ref.arg.toNat]? = some input ∧
        ∃ e ∈ input.embeds, e.selector.value = a.source.value := by
  unfold bindComponent at ha
  split at ha
  · rw [List.mem_singleton.mp ha] at hb
    cases hb
  · obtain ⟨e, he, rfl⟩ := List.mem_map.mp ha
    refine ⟨rfl, ?_⟩
    have hblank : e ∉ Composition.blank.embeds := by
      intro h
      rw [List.mem_singleton.mp h] at hb
      cases hb
    unfold supply at he
    split at he
    · exact absurd he hblank
    · rename_i ref href
      split at he
      · rename_i input path hinput hpath
        refine ⟨ref, href, by rw [hpath]; rfl, input, hinput, ?_⟩
        exact Composition.exists_embed_of_mem_selectPath hb he
      · exact absurd he hblank

/-- **Only a call of a growing function assigns to the next generation** of anything that is
followed. -/
theorem Registry.grows_of_mem_outcomes {registry : Registry} {op : Operation}
    {outcome : List BoundAssignment} (ho : outcome ∈ registry.outcomes op) {a : BoundAssignment}
    (ha : a ∈ outcome) (hstep : a.step = .next) (hb : a.source.isBlank = false) :
    registry.Grows op a.source.value := by
  cases op with
  | assign source target =>
      rw [List.mem_singleton.mp ho] at ha
      rw [List.mem_singleton.mp ha] at hstep
      cases hstep
  | ret values =>
      rw [List.mem_singleton.mp ho] at ha
      cases ha
  | noop =>
      rw [List.mem_singleton.mp ho] at ha
      cases ha
  | move source target step => cases ho
  | call func inputs outputs =>
      have ho : outcome ∈ registry.bindCall func inputs outputs := ho
      unfold bindCall at ho
      split at ho
      · rename_i summary hsummary
        obtain ⟨o, hout, rfl⟩ := List.mem_map.mp ho
        obtain ⟨⟨slot, output⟩, hslot, ha⟩ := List.mem_flatMap.mp ha
        obtain ⟨c, hc, ha⟩ := List.mem_flatMap.mp ha
        obtain ⟨hsame, ref, href, hpath, input, hinput, e, he, hvalue⟩ :=
          Summary.exists_source_of_mem_bindComponent ha hb
        refine ⟨func, inputs, outputs, rfl, summary, hsummary, ref, ⟨hpath, o, hout, slot,
          (List.of_mem_zip hslot).1, c, hc, hsame.symm.trans hstep, href⟩, input, hinput, e, he, ?_,
          hvalue⟩
        rw [Selector.isBlank, hvalue]
        exact hb
      · rw [List.mem_singleton.mp ho] at ha
        obtain ⟨output, -, rfl⟩ := List.mem_map.mp ha
        cases hstep

/-! ## From a conflict back to a call -/

namespace LeafRules

variable {r : LeafRules} {a m : BoundAssignment}

/-- A move reads the value that the assignment reads, or blank. -/
theorem value_source_of_mem_leafMoves (hm : m ∈ r.leafMoves a) (hb : m.source.isBlank = false) :
    m.source.value = a.source.value := by
  unfold leafMoves at hm
  split at hm
  · cases hm
  · obtain ⟨leaf, -, rfl⟩ := List.mem_map.mp hm
    cases hb
  · obtain ⟨leaf, hleaf, rfl⟩ := List.mem_map.mp hm
    exact value_of_mem_below hleaf
  · obtain ⟨u, -, rfl⟩ := List.mem_map.mp hm
    by_cases hu : u ∈ r.suffixes a.source
    · simp only [if_pos hu]
      rfl
    · simp only [if_neg hu] at hb
      cases hb

/-- A move in a chain is the move of a leaf. -/
theorem exists_leafMove_of_mem_chain {t : CellTable} {op : Operation}
    {outcome : List BoundAssignment} {source target : ValueId} {step : GenStep}
    (h : .move source target step ∈ r.chain t op outcome) :
    ∃ a ∈ outcome, ∃ m ∈ r.leafMoves a, t.cell m.source = source ∧ t.cell m.target = target ∧
      m.step = step := by
  rcases mem_chain_cases h with ⟨a, ha, m, hm, hmove⟩ | ⟨_, _, -, hret⟩
  · unfold CellTable.move at hmove
    cases hmove
    exact ⟨a, ha, m, hm, rfl, rfl, rfl⟩
  · cases hret

end LeafRules

/-- A cell that is not blank is that of a followed region. -/
theorem CellTable.Consistent.selector?_of_cell_eq {t : CellTable} (ht : t.Consistent)
    {side : Selector} {cell : ValueId}
    (hcell : t.cell side = cell) (hne : cell ≠ .blank) (hknows : t.Knows side) :
    side.isBlank = false ∧ side ∈ t.selectors ∧ t.selector? cell = some side := by
  have hb : side.isBlank = false := by
    cases hblank : side.isBlank with
    | false => rfl
    | true =>
        rw [CellTable.cell, if_pos hblank] at hcell
        exact absurd hcell.symm hne
  exact ⟨hb, hknows.mem hb, hcell ▸ ht.selector?_cell hb (hknows.mem hb)⟩

namespace FlowGraph

variable {registry : Registry} {depth : Nat} {rich : FlowGraph}

/-- A move in the primitive graph is the move of a leaf of an assignment, which an edge of the rich
graph performs in one of its outcomes. The move leads to a point of the edge's target. -/
theorem Spun.exists_leafMove {s : Lowering.Progress} {drawn : List Strand}
    (h : Spun registry depth rich s drawn) {q : PointId} {u : Transition}
    (hu : u ∈ s.cursor.graph.successors q) {source target : ValueId} {step : GenStep}
    (hop : u.op = .move source target step) :
    ∃ p, rich.Reaches p ∧ ∃ t ∈ rich.successors p,
      s.origins[u.target.index]? = some t.target ∧
      ∃ outcome ∈ registry.outcomes t.op, ∃ a ∈ outcome,
        ∃ m ∈ (leafRules depth (rich.assignments registry)).leafMoves a,
          s.cells.cell m.source = source ∧ s.cells.cell m.target = target ∧ m.step = step ∧
          ∀ side ∈ m.sides, s.cells.Knows side := by
  obtain ⟨st, hst, hmem⟩ := h.woven.traced q u hu
  obtain ⟨hkey, outcome, ho, -, -, hops⟩ := h.weaves.only st hst
  obtain ⟨hp, ht⟩ := mem_reachableEdges_iff.mp hkey
  refine ⟨st.source, hp, st.edge, ht, (h.woven.holds st hst).origins u hmem, outcome, ho, ?_⟩
  have hpadded : Operation.move source target step ∈ st.ops := hop ▸ List.mem_map_of_mem hmem
  rw [hops] at hpadded
  rcases mem_padded hpadded with hchain | hnoop
  · obtain ⟨a, ha, m, hm, hsource, htarget, hstep⟩ :=
      LeafRules.exists_leafMove_of_mem_chain hchain
    refine ⟨a, ha, m, hm, hsource, htarget, hstep, fun side hside => ?_⟩
    refine (h.lowered.carries _ hp _ ht).2.knows side ?_
    refine List.mem_append_left _ (List.mem_flatMap.mpr ⟨outcome, ho, ?_⟩)
    exact List.mem_flatMap.mpr ⟨a, ha, List.mem_flatMap.mpr ⟨m, hm, hside⟩⟩
  · cases hnoop

/-- A move to the next generation in the primitive graph belongs to a growing call of the rich one:
it leads to a point of the call's target and reads a leaf of an argument. -/
theorem Spun.grows_of_move {s : Lowering.Progress} {drawn : List Strand}
    (h : Spun registry depth rich s drawn) {q : PointId} {u : Transition}
    (hu : u ∈ s.cursor.graph.successors q) {source target : ValueId}
    (hop : u.op = .move source target .next) (hsource : source ≠ .blank) :
    ∃ p, rich.Reaches p ∧ ∃ t ∈ rich.successors p,
      s.origins[u.target.index]? = some t.target ∧
      ∃ leaf, s.cells.selector? source = some leaf ∧
        (leafRules depth (rich.assignments registry)).IsLeaf leaf ∧
        registry.Grows t.op leaf.value := by
  obtain ⟨p, hp, t, ht, horigin, outcome, ho, a, ha, m, hm, hcell, -, hstep, hknows⟩ :=
    h.exists_leafMove hu hop
  obtain ⟨hb, hmem, hleaf⟩ :=
    h.lowered.sound.cells.selector?_of_cell_eq hcell hsource (hknows m.source m.source_mem_sides)
  refine ⟨p, hp, t, ht, horigin, m.source, hleaf, (h.lowered.sound.leaves _ hmem).2, ?_⟩
  have hvalue := LeafRules.value_source_of_mem_leafMoves hm hb
  rw [hvalue]
  refine Registry.grows_of_mem_outcomes ho ha
    ((LeafRules.step_of_mem_leafMoves hm).symm.trans hstep) ?_
  rw [Selector.isBlank, ← hvalue]
  exact hb

/-- A warning stands for a conflict of a bounded trace of the primitive graph. -/
theorem exists_conflict_of_mem_warnings {settings : Settings} {report : CheckReport}
    (h : rich.check registry settings = .ok report) :
    ∃ l, rich.lower registry settings.paths.maxPathDepth.toNat = .ok l ∧
      ∀ w ∈ report.warnings, ∃ c trace cs, w = l.warning rich c ∧
        trace ∈ l.graph.allTraces settings.trace.repeatLimit.toNat ∧
        traceConflicts trace = .ok cs ∧ c ∈ cs := by
  obtain ⟨l, found, hlower, hfound, -, hwarnings⟩ := exists_of_check_eq_ok h
  refine ⟨l, hlower, fun w hw => ?_⟩
  rw [hwarnings] at hw
  obtain ⟨c, hc, rfl⟩ := List.mem_map.mp hw
  obtain ⟨cs, hcs, hmem⟩ := List.mem_flatten.mp (firsts_subset _ _ hc)
  obtain ⟨trace, htrace, hconflicts⟩ := exists_mem_of_mapM_eq_ok hfound cs hcs
  rw [traces_eq] at htrace
  exact ⟨c, trace, cs, rfl, Walker.mem_of_mem_affordable htrace, hconflicts, hmem⟩

end FlowGraph

/-- The growth behind a warning. -/
theorem exists_growth_of_mem_warnings {registry : Registry} {settings : Settings}
    {rich : FlowGraph} {report : CheckReport} (h : rich.check registry settings = .ok report)
    {w : Warning} (hw : w ∈ report.warnings) :
    ∃ p, rich.Reaches p ∧ ∃ t ∈ rich.successors p, w.point = t.target ∧
      w.span = rich.reference? w.point ∧ ∃ leaf, w.value = some leaf ∧
        (leafRules settings.paths.maxPathDepth.toNat (rich.assignments registry)).IsLeaf leaf ∧
        registry.Grows t.op leaf.value := by
  obtain ⟨l, hlower, hconflict⟩ := FlowGraph.exists_conflict_of_mem_warnings h
  obtain ⟨s, drawn, hspun, rfl⟩ := FlowGraph.exists_spun hlower
  obtain ⟨c, trace, cs, rfl, htrace, hcs, hc⟩ := hconflict w hw
  have hedges := FlowGraph.mem_successors_of_mem_allTraces htrace
  have hprimitive : ∀ u ∈ trace, u.op.isPrimitive = true := by
    intro u hu
    obtain ⟨q, hq⟩ := hedges u hu
    exact hspun.lowered.sound.ops q u hq
  obtain ⟨before, u, after, rfl, source, target, hop, hsource, -, -, rfl⟩ :=
    (mem_conflicts_iff Ledger.records_empty hprimitive hcs).mp hc
  obtain ⟨q, hq⟩ := hedges u (by simp)
  obtain ⟨p, hp, t, ht, horigin, leaf, hleaf, hisLeaf, hgrows⟩ :=
    hspun.grows_of_move hq hop hsource
  refine ⟨p, hp, t, ht, ?_, rfl, leaf, hleaf, hisLeaf, hgrows⟩
  show (s.origins[u.target.index]?).getD u.target = t.target
  rw [horigin]
  rfl

/-- **Every warning points at a growth of the source.** It is about the point where a reachable call
leads to, a call of a registered function that grows a region of one of its arguments; the region
that it names is a leaf of a value which that argument is composed of; and its span is that of the
point. So a graph without reachable calls of growing functions has no warnings. -/
theorem warnings_point_at_growths {registry : Registry} {settings : Settings} {rich : FlowGraph}
    {report : CheckReport} (h : rich.check registry settings = .ok report) :
    (∀ w ∈ report.warnings, ∃ p, rich.Reaches p ∧ ∃ t ∈ rich.successors p,
      w.point = t.target ∧ w.span = rich.reference? w.point ∧
      ∃ leaf, w.value = some leaf ∧
        (leafRules settings.paths.maxPathDepth.toNat (rich.assignments registry)).IsLeaf leaf ∧
        registry.Grows t.op leaf.value) ∧
    ((∀ p, rich.Reaches p → ∀ t ∈ rich.successors p, ∀ v, ¬ registry.Grows t.op v) →
      report.warnings = []) := by
  refine ⟨fun w hw => exists_growth_of_mem_warnings h hw, fun hnone => ?_⟩
  refine List.eq_nil_iff_forall_not_mem.mpr fun w hw => ?_
  obtain ⟨p, hp, t, ht, -, -, leaf, -, -, hgrows⟩ := exists_growth_of_mem_warnings h hw
  exact hnone p hp t ht leaf.value hgrows

/-- The same field of a value is grown twice, the second time within a composed argument. -/
def FlowGraph.grownTwice : FlowGraph :=
  let first := (Cursor.start none).append
    (.call ⟨1⟩ [.of ⟨.tracked 0, ["items"]⟩] [.tracked 1]) none
  (first.append (.call ⟨1⟩ [⟨[⟨["other"], .blank⟩, ⟨["own"], ⟨.tracked 0, ["items"]⟩⟩]⟩]
    [.tracked 2]) (some (.ofLine 7))).graph

theorem grownTwice_points_at_second_growth :
    ∃ report w, FlowGraph.grownTwice.check .builtin default = .ok report ∧
      report.warnings = [w] ∧ w.span = some (.ofLine 7) ∧
      ∃ p, FlowGraph.grownTwice.Reaches p ∧ ∃ t ∈ FlowGraph.grownTwice.successors p,
        w.point = t.target ∧ ∃ leaf, w.value = some leaf ∧
          Registry.builtin.Grows t.op leaf.value := by
  have hcheck : FlowGraph.grownTwice.check .builtin default =
      .ok ⟨[⟨⟨2⟩, some (.ofLine 7), some ⟨.tracked 0, ["items"]⟩, some ⟨.tracked 0, ["items"]⟩⟩],
        ⟨3, 4, 3, 1, false, 1⟩⟩ := by cbv
  obtain ⟨p, hp, t, ht, hpoint, -, leaf, hvalue, -, hgrows⟩ :=
    (warnings_point_at_growths hcheck).1 _ List.mem_cons_self
  exact ⟨_, _, hcheck, rfl, rfl, p, hp, t, ht, hpoint, leaf, hvalue, hgrows⟩

end SliceLineage
