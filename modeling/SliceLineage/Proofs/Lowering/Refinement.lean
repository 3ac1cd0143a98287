import Mathlib
import SliceLineage.Proofs.Build.Shape
import SliceLineage.Proofs.Flow.Traces
import SliceLineage.Proofs.Lowering.Strands

/-!
# Traces of a lowered graph

The limit on entries holds for every primitive point, also for those inside of strands. In the graph
of a function it makes no difference: only an edge that does something has a strand with points
inside, and such an edge is never the one that the limit forbids. So the traces of the primitive
graph are those of the rich graph, with every edge spelled out by one of its strands.

* `FlowGraph.continuations`: how a path can go on to a trace.
* `Progress.Tracks`: a rich path and a primitive one that follows it, and what their entries have to
  do with each other.
* `Strand.Expands`: a primitive trace goes along a rich one, strand by strand.
* `Spun.mem_continuations_iff`, `Spun.forall₂_continuations`: the traces of the two graphs
  correspond, and if no edge has more than one outcome they do so one to one and in order.
* `lowered_traces_spell_rich_traces`: the result for functions, in terms of operations.
-/

namespace SliceLineage

namespace Trace

theorem entries_append (a b : Trace) (p : PointId) :
    Trace.entries (a ++ b) p = a.entries p + b.entries p := List.countP_append

theorem entries_reverse (a : Trace) (p : PointId) : Trace.entries a.reverse p = a.entries p :=
  List.countP_reverse

theorem entries_eq_count (a : Trace) (p : PointId) :
    a.entries p = (a.map Transition.target).count p := by
  rw [entries, List.count, List.countP_map]
  rfl

theorem last_append (p : PointId) (a b : Trace) :
    Trace.last p (a ++ b) = Trace.last (Trace.last p a) b := by
  induction a generalizing p with
  | nil => rfl
  | cons t rest ih => exact ih t.target

end Trace

namespace FlowGraph

variable {g : FlowGraph} {limit : Nat}

/-- The continuations of a path to `p` that make it a trace, in order. -/
def continuations (g : FlowGraph) (limit : Nat) (path : Trace) (p : PointId) : List Trace :=
  (g.completions limit path p).map Prod.snd

theorem continuations_eq (path : Trace) (p : PointId) :
    g.continuations limit path p =
      if (g.admitted limit path p).isEmpty then [[]]
      else (g.admitted limit path p).flatMap fun t =>
        (g.continuations limit (t :: path) t.target).map (t :: ·) := by
  rw [continuations, map_snd_completions]
  simp [continuations, Function.comp_def]

theorem traces_none (g : FlowGraph) (limit : Nat) :
    g.traces limit none = g.continuations limit [] g.root := g.traces_eq limit none

/-- The edges of a path leave reachable points. -/
theorem IsPath.mem_successors {ts : Trace} {q : PointId} : ∀ {p : PointId}, g.Reaches p →
    g.IsPath p ts q → ∀ t ∈ ts, ∃ r, g.Reaches r ∧ t ∈ g.successors r := by
  induction ts with
  | nil =>
      intro p _ _ t ht
      cases ht
  | cons u rest ih =>
      rintro p hp ⟨hu, hrest⟩ t ht
      rcases List.mem_cons.mp ht with rfl | ht
      · exact ⟨p, hp, hu⟩
      · exact ih (hp.step hu) hrest t ht

theorem isPath_of_follow? {choices : List Nat} :
    ∀ {p : PointId} {trace : Trace}, g.follow? p choices = some trace →
      g.IsPath p trace (trace.last p) := by
  induction choices with
  | nil =>
      intro p trace h
      obtain rfl : [] = trace := Option.some.inj h
      rfl
  | cons i choices ih =>
      intro p trace h
      obtain ⟨t, rest, ht, hrest, rfl⟩ := follow?_cons_eq_some.mp h
      exact ⟨List.mem_of_getElem? ht, ih hrest⟩

theorem isPath_of_mem_continuations {path trace : Trace} {p : PointId}
    (h : trace ∈ g.continuations limit path p) : g.IsPath p trace (trace.last p) := by
  obtain ⟨⟨choices, _⟩, hc, rfl⟩ := List.mem_map.mp h
  exact isPath_of_follow? (mem_completions_iff.mp hc).follows

theorem isPath_of_mem_traces {budget : Option Nat} {trace : Trace}
    (h : trace ∈ g.traces limit budget) : g.IsPath g.root trace (trace.last g.root) := by
  rw [traces_eq] at h
  exact isPath_of_mem_continuations (Walker.mem_of_mem_affordable h)

end FlowGraph

namespace Lowering.Progress

variable {s : Progress} {limit : Nat} {stop : PointId}

/-- Inside a strand a path has one continuation to the end of it. -/
theorem Forced.continuations {rest : Trace} :
    ∀ {x : PointId} {path : Trace}, s.Forced x rest stop → (rest.map Transition.target).Nodup →
      (∀ u ∈ rest, path.entries u.target < limit) →
      s.cursor.graph.continuations limit path x =
        (s.cursor.graph.continuations limit (rest.reverse ++ path) stop).map (rest ++ ·) := by
  induction rest with
  | nil =>
      intro x path h _ _
      obtain rfl : x = stop := h
      simp
  | cons u rest ih =>
      rintro x path ⟨hsucc, -, -, hrest⟩ hnodup hlt
      obtain ⟨hnew, hnodup⟩ := List.nodup_cons.mp hnodup
      have hadmitted : s.cursor.graph.admitted limit path x = [u] := by
        simp [FlowGraph.admitted, hsucc, hlt u List.mem_cons_self]
      have hlater : ∀ v ∈ rest, Trace.entries (u :: path) v.target < limit := by
        intro v hv
        have hne : u.target ≠ v.target := fun e => hnew (e ▸ List.mem_map_of_mem hv)
        rw [Trace.entries_cons, if_neg hne]
        exact hlt v (List.mem_cons_of_mem _ hv)
      rw [FlowGraph.continuations_eq, hadmitted]
      simp only [List.isEmpty_cons, Bool.false_eq_true, if_false, List.flatMap_cons,
        List.flatMap_nil, List.append_nil]
      rw [ih hrest hnodup hlater]
      simp [Function.comp_def]

theorem Forced.last {rest : Trace} : ∀ {x : PointId}, s.Forced x rest stop →
    Trace.last x rest = stop := by
  induction rest with
  | nil => exact fun h => h
  | cons u rest ih => exact fun h => ih h.2.2.2

/-- The points of a strand are its end and points that are no images. -/
theorem Forced.points {rest : Trace} : ∀ {x : PointId}, s.Forced x rest stop →
    stop ∈ x :: rest.map Transition.target ∧
      ∀ y ∈ x :: rest.map Transition.target, y = stop ∨ ¬ s.IsImage y := by
  induction rest with
  | nil =>
      intro x h
      obtain rfl : x = stop := h
      exact ⟨List.mem_cons_self, fun y hy => Or.inl (List.mem_singleton.mp hy)⟩
  | cons u rest ih =>
      rintro x ⟨-, -, himage, hrest⟩
      obtain ⟨hstop, hall⟩ := ih hrest
      refine ⟨List.mem_cons_of_mem _ hstop, fun y hy => ?_⟩
      rcases List.mem_cons.mp hy with rfl | hy
      · exact Or.inr himage
      · exact hall y hy

/-- The primitive path `low` follows the rich path `path`: it has entered the image of a point as
often as `path` has entered the point, and no other point that belongs to it more often. -/
structure Tracks (s : Progress) (path low : Trace) : Prop where
  images : ∀ p q, s.images.lookup p = some q → low.entries q = path.entries p
  inner : ∀ q p, ¬ s.IsImage q → s.origins[q.index]? = some p → low.entries q ≤ path.entries p

theorem tracks_nil (s : Progress) : s.Tracks [] [] :=
  ⟨fun _ _ _ => rfl, fun _ _ _ _ => Nat.le_refl _⟩

variable {rules : LeafRules} {path low : Trace} {st : Strand}

theorem Holds.entries (h : s.Holds st) (q : PointId) :
    Trace.entries (st.trace.reverse ++ low) q =
      low.entries q + if q ∈ st.trace.map Transition.target then 1 else 0 := by
  rw [Trace.entries_append, Trace.entries_reverse, Trace.entries_eq_count, h.nodup.count,
    Nat.add_comm]

/-- Going along a strand is taking its edge. -/
theorem Tracks.step (ht : s.Tracks path low) (hs : s.Sound rules) (h : s.Holds st) :
    s.Tracks (st.edge :: path) (st.trace.reverse ++ low) where
  images p q hq := by
    obtain ⟨stop, hstop, hforced⟩ := h.forced
    obtain ⟨hend, hpoints⟩ := hforced.points
    have hiff : q ∈ st.trace.map Transition.target ↔ st.edge.target = p := by
      constructor
      · intro hmem
        rcases hpoints q hmem with rfl | himage
        · exact hs.eq_of_image hstop hq
        · exact absurd ⟨p, hq⟩ himage
      · rintro rfl
        obtain rfl : stop = q := Option.some.inj (hstop.symm.trans hq)
        exact hend
    rw [h.entries, Trace.entries_cons, ht.images p q hq]
    simp only [hiff]
  inner q p hq hp := by
    have hle := ht.inner q p hq hp
    rw [h.entries, Trace.entries_cons]
    by_cases hmem : q ∈ st.trace.map Transition.target
    · obtain ⟨u, hu, rfl⟩ := List.mem_map.mp hmem
      obtain rfl : st.edge.target = p := Option.some.inj ((h.origins u hu).symm.trans hp)
      rw [if_pos hmem, if_pos rfl]
      omega
    · rw [if_neg hmem]
      omega

/-- If the limit admits the edge, it admits the whole strand. -/
theorem Tracks.admits (ht : s.Tracks path low) (h : s.Holds st)
    (hlt : path.entries st.edge.target < limit) :
    ∀ u ∈ st.trace, low.entries u.target < limit := by
  intro u hu
  obtain ⟨stop, hstop, hforced⟩ := h.forced
  rcases hforced.points.2 u.target (List.mem_map_of_mem hu) with hend | himage
  · rw [hend, ht.images _ _ hstop]
    exact hlt
  · exact Nat.lt_of_le_of_lt (ht.inner _ _ himage (h.origins u hu)) hlt

/-- A path that takes an admitted strand goes along all of it. -/
theorem Tracks.continuations (ht : s.Tracks path low) (h : s.Holds st)
    (hlt : path.entries st.edge.target < limit)
    (hstop : s.images.lookup st.edge.target = some stop) :
    (s.cursor.graph.continuations limit (st.first :: low) st.first.target).map (st.first :: ·) =
      (s.cursor.graph.continuations limit (st.trace.reverse ++ low) stop).map
        (st.trace ++ ·) := by
  obtain ⟨stop', hstop', hforced⟩ := h.forced
  obtain rfl : stop' = stop := Option.some.inj (hstop'.symm.trans hstop)
  obtain ⟨hnew, hnodup⟩ := List.nodup_cons.mp h.nodup
  have hadmits := ht.admits h hlt
  have hlater : ∀ u ∈ st.rest, Trace.entries (st.first :: low) u.target < limit := by
    intro u hu
    have hne : st.first.target ≠ u.target := fun e => hnew (e ▸ List.mem_map_of_mem hu)
    rw [Trace.entries_cons, if_neg hne]
    exact hadmits u (List.mem_cons_of_mem _ hu)
  rw [hforced.continuations hnodup hlater]
  simp [Strand.trace, Function.comp_def]

end Lowering.Progress

/-- The primitive trace goes along the rich trace from `p`, for every edge by one of its strands. -/
def Strand.Expands (drawn : List Strand) : PointId → Trace → Trace → Prop
  | _, [], low => low = []
  | p, t :: rest, low => ∃ st ∈ drawn, st.source = p ∧ st.edge = t ∧
      ∃ later, low = st.trace ++ later ∧ Strand.Expands drawn t.target rest later

namespace FlowGraph

variable {registry : Registry} {depth limit : Nat} {rich : FlowGraph} {s : Lowering.Progress}
  {drawn : List Strand}

/-- The edge of a strand is an edge of the rich graph. -/
theorem Spun.mem_successors (h : Spun registry depth rich s drawn) {st : Strand}
    (hst : st ∈ drawn) : rich.Reaches st.source ∧ st.edge ∈ rich.successors st.source :=
  mem_reachableEdges_iff.mp (h.weaves.only st hst).1

/-- Without edges from a point to itself, the operations of a strand are those of its chain. -/
theorem Spun.exists_outcome (h : Spun registry depth rich s drawn) (hg : rich.Wired) {st : Strand}
    (hst : st ∈ drawn) : ∃ outcome ∈ registry.outcomes st.edge.op, st.ops =
      filled ((leafRules depth (rich.assignments registry)).chain s.cells st.edge.op outcome) := by
  obtain ⟨-, outcome, ho, -, -, hops⟩ := h.weaves.only st hst
  have hloop : decide (st.source = st.edge.target) = false :=
    decide_eq_false (hg.loopless _ _ (h.mem_successors hst).2).symm
  rw [hloop, padded_false] at hops
  exact ⟨outcome, ho, hops⟩

/-- Each outcome of an edge has a strand. -/
theorem Spun.exists_strand (h : Spun registry depth rich s drawn) (hg : rich.Wired) {p : PointId}
    (hp : rich.Reaches p) {t : Transition} (ht : t ∈ rich.successors p)
    {outcome : List BoundAssignment} (ho : outcome ∈ registry.outcomes t.op) :
    ∃ st ∈ drawn, st.source = p ∧ st.edge = t ∧ st.ops =
      filled ((leafRules depth (rich.assignments registry)).chain s.cells t.op outcome) := by
  obtain ⟨st, hst, rfl, htarget, hops⟩ :=
    h.weaves.all _ (mem_reachableEdges_iff.mpr ⟨hp, ht⟩) outcome ho
  have hloop : decide (st.source = t.target) = false := decide_eq_false (hg.loopless _ t ht).symm
  rw [hloop, padded_false] at hops
  exact ⟨st, hst, rfl, hg.eq_of_target_eq ht (h.mem_successors hst).2 htarget, hops⟩

/-- The strand of an empty edge is an empty edge. -/
theorem Spun.rest_eq_nil (h : Spun registry depth rich s drawn) (hg : rich.Wired) {st : Strand}
    (hst : st ∈ drawn) (hop : st.edge.op = .noop) : st.rest = [] := by
  obtain ⟨outcome, ho, hops⟩ := h.exists_outcome hg hst
  rw [hop] at ho hops
  rw [List.mem_singleton.mp ho] at hops
  have hlength : st.ops.length = 1 := by
    rw [hops]
    rfl
  simpa [Strand.ops, Strand.trace] using hlength

section

variable {path low : Trace} {p : PointId}

/-- **The limit admits a strand exactly if it admits its edge.** -/
theorem Spun.first_admitted_iff (h : Spun registry depth rich s drawn) (hg : rich.Wired)
    (hw : rich.Walked limit path p) (ht : s.Tracks path low) {st : Strand} (hst : st ∈ drawn)
    (hsource : st.source = p) :
    low.entries st.first.target < limit ↔ path.entries st.edge.target < limit := by
  have hholds := h.woven.holds st hst
  constructor
  · intro hlt
    by_cases hop : st.edge.op = .noop
    · obtain ⟨stop, hstop, hforced⟩ := hholds.forced
      rw [h.rest_eq_nil hg hst hop] at hforced
      have hend : st.first.target = stop := hforced
      rwa [hend, ht.images _ _ hstop] at hlt
    · exact hw.admits (hsource ▸ (h.mem_successors hst).2) hop (by omega)
  · exact fun hlt => ht.admits hholds hlt _ List.mem_cons_self

/-- The strands of the edges at `p` that a path may still take. -/
def openStrands (limit : Nat) (drawn : List Strand) (path : Trace) (p : PointId) : List Strand :=
  (drawn.filter (·.source = p)).filter fun st => path.entries st.edge.target < limit

theorem mem_openStrands {st : Strand} : st ∈ openStrands limit drawn path p ↔
    st ∈ drawn ∧ st.source = p ∧ path.entries st.edge.target < limit := by
  rw [openStrands, List.mem_filter, List.mem_filter]
  simp [and_assoc]

theorem Spun.admitted_eq (h : Spun registry depth rich s drawn) (hg : rich.Wired)
    (hw : rich.Walked limit path p) (ht : s.Tracks path low) {q : PointId}
    (hq : s.images.lookup p = some q) :
    s.cursor.graph.admitted limit low q = (openStrands limit drawn path p).map Strand.first := by
  rw [admitted, h.woven.heads p q hq, List.filter_map, openStrands]
  congr 1
  refine List.filter_congr fun st hst => ?_
  obtain ⟨hst, hsource⟩ := List.mem_filter.mp hst
  exact decide_eq_decide.mpr (h.first_admitted_iff hg hw ht hst (of_decide_eq_true hsource))

/-- A primitive path at an image can go on if the rich one can. -/
theorem Spun.openStrands_eq_nil_iff (h : Spun registry depth rich s drawn) (hg : rich.Wired)
    (hout : ∀ t ∈ rich.successors p, registry.outcomes t.op ≠ []) (hp : rich.Reaches p) :
    openStrands limit drawn path p = [] ↔ rich.admitted limit path p = [] := by
  rw [List.eq_nil_iff_forall_not_mem, List.eq_nil_iff_forall_not_mem]
  constructor
  · intro hnone t ht
    obtain ⟨ht, hlt⟩ := List.mem_filter.mp ht
    obtain ⟨outcome, ho⟩ := List.exists_mem_of_ne_nil _ (hout t ht)
    obtain ⟨st, hst, hsource, rfl, -⟩ := h.exists_strand hg hp ht ho
    exact hnone st (mem_openStrands.mpr ⟨hst, hsource, of_decide_eq_true hlt⟩)
  · intro hnone st hst
    obtain ⟨hst, hsource, hlt⟩ := mem_openStrands.mp hst
    exact hnone st.edge (List.mem_filter.mpr
      ⟨hsource ▸ (h.mem_successors hst).2, decide_eq_true hlt⟩)

/-- The continuations of a primitive path at an image, strand by strand. -/
theorem Spun.continuations_eq (h : Spun registry depth rich s drawn) (hg : rich.Wired)
    (hw : rich.Walked limit path p) (ht : s.Tracks path low) {q : PointId}
    (hq : s.images.lookup p = some q) :
    s.cursor.graph.continuations limit low q =
      if (openStrands limit drawn path p).isEmpty then [[]]
      else (openStrands limit drawn path p).flatMap fun st =>
        (s.cursor.graph.continuations limit (st.first :: low) st.first.target).map
          (st.first :: ·) := by
  rw [FlowGraph.continuations_eq, h.admitted_eq hg hw ht hq, List.flatMap_map, List.isEmpty_map]

end

/-- **The traces of the primitive graph are those of the rich graph, strand by strand.** The
induction is on what the rich path may still enter. -/
theorem Spun.mem_continuations_iff (h : Spun registry depth rich s drawn) (hg : rich.Wired)
    (hout : ∀ p, ∀ t ∈ rich.successors p, registry.outcomes t.op ≠ []) {path low : Trace}
    {p q : PointId} (hw : rich.Walked limit path p) (ht : s.Tracks path low)
    (hq : s.images.lookup p = some q) {trace : Trace} :
    trace ∈ s.cursor.graph.continuations limit low q ↔
      ∃ above ∈ rich.continuations limit path p, Strand.Expands drawn p above trace := by
  have hnone : openStrands limit drawn path p = [] ↔ rich.admitted limit path p = [] :=
    h.openStrands_eq_nil_iff hg (hout p) hw.reaches
  rw [h.continuations_eq hg hw ht hq, FlowGraph.continuations_eq]
  by_cases hempty : rich.admitted limit path p = []
  · simp [hnone.mpr hempty, hempty, Strand.Expands]
  · have hsome : openStrands limit drawn path p ≠ [] := fun e => hempty (hnone.mp e)
    rw [if_neg (by simpa using hsome), if_neg (by simpa using hempty)]
    constructor
    · intro htrace
      obtain ⟨st, hopen, hmem⟩ := List.mem_flatMap.mp htrace
      obtain ⟨hst, rfl, hlt⟩ := mem_openStrands.mp hopen
      have hholds := h.woven.holds st hst
      obtain ⟨stop, hstop, -⟩ := hholds.forced
      rw [ht.continuations hholds hlt hstop] at hmem
      obtain ⟨later, hlater, rfl⟩ := List.mem_map.mp hmem
      have hedge := (h.mem_successors hst).2
      obtain ⟨rest, hrest, hexpands⟩ := (h.mem_continuations_iff hg hout (hw.step hg hedge hlt)
        (ht.step h.lowered.sound hholds) hstop).mp hlater
      refine ⟨st.edge :: rest, List.mem_flatMap.mpr ⟨st.edge, ?_, List.mem_map_of_mem hrest⟩,
        st, hst, rfl, rfl, later, rfl, hexpands⟩
      exact List.mem_filter.mpr ⟨hedge, decide_eq_true hlt⟩
    · rintro ⟨above, habove, hexpands⟩
      obtain ⟨t, hadmitted, hmem⟩ := List.mem_flatMap.mp habove
      obtain ⟨rest, hrest, rfl⟩ := List.mem_map.mp hmem
      obtain ⟨hedge, hbound⟩ := List.mem_filter.mp hadmitted
      have hlt := of_decide_eq_true hbound
      obtain ⟨st, hst, rfl, rfl, later, rfl, hlater⟩ := hexpands
      have hholds := h.woven.holds st hst
      obtain ⟨stop, hstop, -⟩ := hholds.forced
      refine List.mem_flatMap.mpr ⟨st, mem_openStrands.mpr ⟨hst, rfl, hlt⟩, ?_⟩
      rw [ht.continuations hholds hlt hstop]
      refine List.mem_map_of_mem ?_
      exact (h.mem_continuations_iff hg hout (hw.step hg hedge hlt)
        (ht.step h.lowered.sound hholds) hstop).mpr ⟨rest, hrest, hlater⟩
termination_by path.room limit rich.entryPoints
decreasing_by
  · exact room_lt_of_mem_admitted (List.mem_filter.mpr ⟨hedge, decide_eq_true hlt⟩)
  · exact room_lt_of_mem_admitted (List.mem_filter.mpr ⟨hedge, decide_eq_true hlt⟩)

/-- If each edge at a reachable point has one strand, the traces correspond in order. -/
theorem Spun.forall₂_continuations (h : Spun registry depth rich s drawn) (hg : rich.Wired)
    (hone : ∀ p, rich.Reaches p →
      (drawn.filter (·.source = p)).map Strand.edge = rich.successors p)
    {path low : Trace} {p q : PointId} (hw : rich.Walked limit path p) (ht : s.Tracks path low)
    (hq : s.images.lookup p = some q) :
    List.Forall₂ (Strand.Expands drawn p) (rich.continuations limit path p)
      (s.cursor.graph.continuations limit low q) := by
  have hadmitted : rich.admitted limit path p =
      (openStrands limit drawn path p).map Strand.edge := by
    rw [admitted, ← hone p hw.reaches, List.filter_map]
    rfl
  rw [h.continuations_eq hg hw ht hq, FlowGraph.continuations_eq, hadmitted, List.isEmpty_map]
  split
  · exact .cons rfl .nil
  · rw [List.flatMap_map]
    refine List.rel_flatMap (R := fun st st' => st = st' ∧ st ∈ openStrands limit drawn path p)
      (List.forall₂_same.mpr fun st hst => ⟨rfl, hst⟩) ?_
    rintro st _ ⟨rfl, hopen⟩
    obtain ⟨hst, rfl, hlt⟩ := mem_openStrands.mp hopen
    have hholds := h.woven.holds st hst
    have hedge := (h.mem_successors hst).2
    obtain ⟨stop, hstop, -⟩ := hholds.forced
    have hlater := h.forall₂_continuations hg hone (hw.step hg hedge hlt)
      (ht.step h.lowered.sound hholds) hstop
    show List.Forall₂ _ (List.map _ _) (List.map _ _)
    rw [ht.continuations hholds hlt hstop, List.forall₂_map_left_iff, List.forall₂_map_right_iff]
    exact hlater.imp fun above later hexpands => ⟨st, hst, rfl, rfl, later, rfl, hexpands⟩
termination_by path.room limit rich.entryPoints
decreasing_by exact room_lt_of_mem_admitted (List.mem_filter.mpr ⟨hedge, decide_eq_true hlt⟩)

theorem reachable_nodup (g : FlowGraph) : g.reachable.Nodup :=
  saturate_nodup _ _ _ _ (by simp)

theorem Wired.reachableEdges_apart (hg : rich.Wired) :
    rich.reachableEdges.Pairwise Lowering.Apart := by
  refine List.pairwise_flatMap.mpr ⟨fun p _ => ?_, rich.reachable_nodup.imp ?_⟩
  · refine List.pairwise_map.mpr ((hg.nodup p).imp_of_mem ?_)
    rintro t u ht hu hne ⟨-, htarget⟩
    exact hne (hg.eq_of_target_eq hu ht htarget)
  · rintro p q hne e he e' he' ⟨hsource, -⟩
    obtain ⟨t, -, rfl⟩ := List.mem_map.mp he
    obtain ⟨u, -, rfl⟩ := List.mem_map.mp he'
    exact hne hsource

/-- What a list of pairs, grouped by their first parts, has for one of them. -/
theorem filter_flatMap_pairs {α β : Type} [DecidableEq α] (f : α → List β) {a : α} {xs : List α}
    (hnodup : xs.Nodup) (ha : a ∈ xs) :
    (xs.flatMap fun x => (f x).map (x, ·)).filter (·.1 = a) = (f a).map (a, ·) := by
  induction xs with
  | nil => cases ha
  | cons x rest ih =>
      obtain ⟨hx, hrest⟩ := List.nodup_cons.mp hnodup
      rw [List.flatMap_cons, List.filter_append]
      by_cases hxa : x = a
      · subst hxa
        have hothers : (rest.flatMap fun y => (f y).map (y, ·)).filter (·.1 = x) = [] := by
          refine List.filter_eq_nil_iff.mpr fun e he hsource => ?_
          obtain ⟨y, hy, he⟩ := List.mem_flatMap.mp he
          obtain ⟨b, -, rfl⟩ := List.mem_map.mp he
          exact hx (of_decide_eq_true hsource ▸ hy)
        rw [hothers, List.append_nil]
        exact List.filter_eq_self.mpr (by simp)
      · have hnone : ((f x).map (x, ·)).filter (·.1 = a) = [] :=
          List.filter_eq_nil_iff.mpr (by simp [hxa])
        rw [hnone, List.nil_append]
        exact ih hrest ((List.mem_cons.mp ha).resolve_left (Ne.symm hxa))

/-- If no edge has more than one outcome, each edge has one strand, in the order of the edges. -/
theorem Spun.strands_eq (h : Spun registry depth rich s drawn) (hg : rich.Wired)
    (hout : ∀ p, ∀ t ∈ rich.successors p, (registry.outcomes t.op).length = 1) {p : PointId}
    (hp : rich.Reaches p) :
    (drawn.filter (·.source = p)).map Strand.edge = rich.successors p := by
  have hkeys : drawn.map Strand.key = rich.reachableEdges :=
    h.weaves.single (fun e he => hout e.1 e.2 (mem_reachableEdges_iff.mp he).2)
      hg.reachableEdges_apart
  have hfilter : (drawn.filter (·.source = p)).map Strand.key =
      (rich.successors p).map (p, ·) := by
    rw [← filter_flatMap_pairs rich.successors rich.reachable_nodup (mem_reachable_iff.mpr hp)]
    rw [show (rich.reachable.flatMap fun x => (rich.successors x).map (x, ·)) = _ from hkeys.symm,
      List.filter_map]
    rfl
  have hedges := congrArg (List.map Prod.snd) hfilter
  simpa [Function.comp_def, Strand.key] using hedges

end FlowGraph

/-! ## Spelling out traces -/

namespace Lowering

/-- The operations by which a rich trace can be spelled out: for each edge the chain of one of its
outcomes, or an empty edge if the chain has no operations. -/
def spellings (l : Lowering) (registry : Registry) : Trace → List (List Operation)
  | [] => [[]]
  | t :: rest => (l.chainsOf registry t.op).flatMap fun chain =>
      (l.spellings registry rest).map (filled chain ++ ·)

/-- The primitive point `q` is the image of the rich point `p`, which is the first point that
belongs to `p`. The points inside of chains come after it. -/
def Represents (l : Lowering) (q p : PointId) : Prop :=
  l.origin? q = some p ∧ ∀ x, l.origin? x = some p → q.index ≤ x.index

theorem mem_spellings_cons {l : Lowering} {registry : Registry} {t : Transition} {rest : Trace}
    {ops : List Operation} : ops ∈ l.spellings registry (t :: rest) ↔
      ∃ chain ∈ l.chainsOf registry t.op, ∃ later ∈ l.spellings registry rest,
        filled chain ++ later = ops := by
  simp [spellings]

theorem length_spellings {l : Lowering} {registry : Registry} {trace : Trace}
    (h : ∀ t ∈ trace, (l.chainsOf registry t.op).length = 1) :
    (l.spellings registry trace).length = 1 := by
  induction trace with
  | nil => rfl
  | cons t rest ih =>
      obtain ⟨chain, hchain⟩ := List.length_eq_one_iff.mp (h t List.mem_cons_self)
      have hrest := ih fun u hu => h u (List.mem_cons_of_mem _ hu)
      simp [spellings, hchain, hrest]

end Lowering

namespace FlowGraph

variable {registry : Registry} {depth limit : Nat} {rich : FlowGraph} {s : Lowering.Progress}
  {drawn : List Strand}

/-- **A rich trace is spelled out by the operations of the primitive traces along it.** -/
theorem Spun.mem_spellings_iff (h : Spun registry depth rich s drawn) (hg : rich.Wired)
    {above : Trace} : ∀ {p q : PointId} {ops : List Operation}, rich.Reaches p →
      rich.IsPath p above q →
      (ops ∈ (s.lowering (leafRules depth (rich.assignments registry))).spellings registry above ↔
        ∃ low, Strand.Expands drawn p above low ∧ low.map Transition.op = ops) := by
  induction above with
  | nil =>
      intro p q ops _ _
      simp [Lowering.spellings, Strand.Expands, eq_comm]
  | cons t rest ih =>
      rintro p q ops hp ⟨ht, hpath⟩
      rw [Lowering.mem_spellings_cons, h.lowered.chainsOf_eq hp ht]
      constructor
      · rintro ⟨chain, hchain, later, hlater, rfl⟩
        obtain ⟨outcome, ho, rfl⟩ := List.mem_map.mp hchain
        obtain ⟨st, hst, hsource, rfl, hops⟩ := h.exists_strand hg hp ht ho
        obtain ⟨low, hlow, rfl⟩ := (ih (hp.step ht) hpath).mp hlater
        refine ⟨st.trace ++ low, ⟨st, hst, hsource, rfl, low, rfl, hlow⟩, ?_⟩
        rw [List.map_append, ← hops]
        rfl
      · rintro ⟨_, ⟨st, hst, -, rfl, low, rfl, hlow⟩, rfl⟩
        obtain ⟨outcome, ho, hops⟩ := h.exists_outcome hg hst
        refine ⟨_, List.mem_map_of_mem ho, _, (ih (hp.step ht) hpath).mpr ⟨low, hlow, rfl⟩, ?_⟩
        rw [List.map_append, ← hops]
        rfl

/-- If no edge has more than one outcome, a rich trace is spelled out in one way. -/
theorem Spun.spellings_eq (h : Spun registry depth rich s drawn) (hg : rich.Wired)
    (hout : ∀ p, ∀ t ∈ rich.successors p, (registry.outcomes t.op).length = 1) {p q : PointId}
    {above low : Trace} (hp : rich.Reaches p) (hpath : rich.IsPath p above q)
    (hexpands : Strand.Expands drawn p above low) :
    (s.lowering (leafRules depth (rich.assignments registry))).spellings registry above =
      [low.map Transition.op] := by
  have hlength : ((s.lowering (leafRules depth (rich.assignments registry))).spellings registry
      above).length = 1 := by
    refine Lowering.length_spellings fun t ht => ?_
    obtain ⟨r, hr, ht⟩ := hpath.mem_successors hp t ht
    rw [h.lowered.chainsOf_eq hr ht, List.length_map]
    exact hout r t ht
  obtain ⟨ops, hops⟩ := List.length_eq_one_iff.mp hlength
  have hmem := (h.mem_spellings_iff hg hp hpath).mpr ⟨low, hexpands, rfl⟩
  rw [hops, List.mem_singleton] at hmem
  rw [hmem]
  exact hops

/-- A primitive trace along a rich one ends at the image of its end. -/
theorem Spun.lookup_last (h : Spun registry depth rich s drawn) {above : Trace} :
    ∀ {p q : PointId} {low : Trace}, Strand.Expands drawn p above low →
      s.images.lookup p = some q → s.images.lookup (above.last p) = some (low.last q) := by
  induction above with
  | nil =>
      rintro p q _ rfl hq
      exact hq
  | cons t rest ih =>
      rintro p q _ ⟨st, hst, -, rfl, later, rfl, hlater⟩ _
      obtain ⟨stop, hstop, hforced⟩ := (h.woven.holds st hst).forced
      rw [Trace.last_append, Strand.trace, Trace.last, Trace.last, hforced.last]
      exact ih hlater hstop

theorem Spun.represents (h : Spun registry depth rich s drawn) {p q : PointId}
    (hq : s.images.lookup p = some q) (rules : LeafRules) : (s.lowering rules).Represents q p := by
  refine ⟨h.lowered.sound.images p q hq, fun x hx => ?_⟩
  obtain ⟨q', hq', hle⟩ := h.woven.earliest x.index p hx
  obtain rfl : q = q' := Option.some.inj (hq.symm.trans hq')
  exact hle

end FlowGraph

/-- An operation that is no cell operation has one outcome, or those of a registered summary. -/
theorem Registry.length_outcomes (registry : Registry) {op : Operation} (hop : op.isMove = false) :
    (registry.outcomes op).length = 1 ∨
      ∃ s ∈ registry.summaries, (registry.outcomes op).length = s.outcomes.length := by
  cases op with
  | assign source target => exact Or.inl rfl
  | ret values => exact Or.inl rfl
  | noop => exact Or.inl rfl
  | move source target step => cases hop
  | call func inputs outputs =>
      show (registry.bindCall func inputs outputs).length = 1 ∨ ∃ s ∈ registry.summaries,
        (registry.bindCall func inputs outputs).length = s.outcomes.length
      unfold bindCall
      split
      · rename_i s hs
        exact Or.inr ⟨s, List.mem_of_getElem? hs, List.length_map _⟩
      · exact Or.inl rfl

theorem Summary.outcomes_ne_nil {s : Summary} (h : s.check = .ok ()) : s.outcomes ≠ [] := by
  intro hnil
  unfold check fault? at h
  split at h
  · cases h
  · simp [hnil] at h

theorem Registry.outcomes_ne_nil {registry : Registry}
    (hreg : ∀ s ∈ registry.summaries, s.check = .ok ()) {op : Operation}
    (hop : op.isMove = false) : registry.outcomes op ≠ [] := by
  intro hnil
  rcases registry.length_outcomes hop with hlength | ⟨summary, hmem, hlength⟩
  · rw [hnil] at hlength
    cases hlength
  · rw [hnil] at hlength
    exact Summary.outcomes_ne_nil (hreg summary hmem) (List.eq_nil_of_length_eq_zero hlength.symm)

/-- **The traces of the lowered graph of a function are its traces, lowered.** Under the same limit,
they spell out the rich traces, each edge by the chain of one of its outcomes; none of them stops
inside of a chain. If no summary has more than one outcome, the traces of the two graphs correspond
one to one, in the same order. -/
theorem lowered_traces_spell_rich_traces {registry : Registry} {f : FunctionDecl}
    {rich : FlowGraph} (hreg : ∀ s ∈ registry.summaries, s.check = .ok ())
    (hf : f.graph registry = .ok rich) (depth limit : Nat) :
    ∃ l, rich.lower registry depth = .ok l ∧
      (∀ ops, (∃ trace ∈ l.graph.traces limit none, trace.map Transition.op = ops) ↔
        ∃ trace ∈ rich.traces limit none, ops ∈ l.spellings registry trace) ∧
      (∀ trace ∈ l.graph.traces limit none, ∃ p, l.Represents (trace.last l.graph.root) p) ∧
      ((∀ s ∈ registry.summaries, s.outcomes.length = 1) →
        List.Forall₂ (fun trace lowered => l.spellings registry trace =
          [lowered.map Transition.op]) (rich.traces limit none) (l.graph.traces limit none)) := by
  have hg := f.wired_graph hf
  have hops := f.allOps_graph hf
  obtain ⟨l, hl, -⟩ := FlowGraph.exists_lower registry depth hops
  obtain ⟨s, drawn, h, rfl⟩ := FlowGraph.exists_spun hl
  have hroot := h.lowered.image_root
  have hwalked := rich.walked_root limit
  have htracks := s.tracks_nil
  have hout : ∀ p, ∀ t ∈ rich.successors p, registry.outcomes t.op ≠ [] :=
    fun p t ht => Registry.outcomes_ne_nil hreg (hops p t ht)
  have htrace : ∀ {trace}, trace ∈ s.cursor.graph.continuations limit [] s.cursor.graph.root ↔
      ∃ above ∈ rich.continuations limit [] rich.root,
        Strand.Expands drawn rich.root above trace :=
    h.mem_continuations_iff hg hout hwalked htracks hroot
  have hspell : ∀ {above}, above ∈ rich.continuations limit [] rich.root → ∀ {ops},
      ops ∈ (s.lowering (leafRules depth (rich.assignments registry))).spellings registry above ↔
        ∃ low, Strand.Expands drawn rich.root above low ∧ low.map Transition.op = ops :=
    fun habove => h.mem_spellings_iff hg (.root rich) (FlowGraph.isPath_of_mem_continuations habove)
  simp only [FlowGraph.traces_none]
  refine ⟨_, hl, fun ops => ⟨?_, ?_⟩, fun trace hmem => ?_, fun hone => ?_⟩
  · rintro ⟨trace, hmem, rfl⟩
    obtain ⟨above, habove, hexpands⟩ := htrace.mp hmem
    exact ⟨above, habove, (hspell habove).mpr ⟨trace, hexpands, rfl⟩⟩
  · rintro ⟨above, habove, hops⟩
    obtain ⟨trace, hexpands, rfl⟩ := (hspell habove).mp hops
    exact ⟨trace, htrace.mpr ⟨above, habove, hexpands⟩, rfl⟩
  · obtain ⟨above, -, hexpands⟩ := htrace.mp hmem
    exact ⟨_, h.represents (h.lookup_last hexpands hroot) _⟩
  · have hsingle : ∀ p, ∀ t ∈ rich.successors p, (registry.outcomes t.op).length = 1 := by
      intro p t ht
      rcases registry.length_outcomes (hops p t ht) with hlength | ⟨summary, hmem, hlength⟩
      · exact hlength
      · exact hlength.trans (hone summary hmem)
    have hall := h.forall₂_continuations hg (fun p hp => h.strands_eq hg hsingle hp) hwalked
      htracks hroot
    refine ((List.forall₂_and_left _ _).mpr ⟨fun above habove => habove, hall⟩).imp ?_
    rintro above low ⟨habove, hexpands⟩
    exact h.spellings_eq hg hsingle (.root rich) (FlowGraph.isPath_of_mem_continuations habove)
      hexpands

/-- A function of one argument that grows it or gives a new value. -/
def Registry.chooser : Registry :=
  Registry.empty.enter ⟨"pick", [.whole], [⟨[⟨[.ofInput 0 .next]⟩]⟩, ⟨[⟨[.fresh]⟩]⟩]⟩

/-- Each round of a loop fills one field of a value from another one; then the value, which has two
leaves, is copied and returned. -/
def FunctionDecl.pickingLoop : FunctionDecl :=
  let x : Expr := .ident "x" default
  let pick : Stmt := .assign [x.field "rest"] [.callNamed "pick" [x.field "items"] default] default
  ⟨"loop", ["x"], [none], ⟨[.forLoop none none none ⟨[pick], default⟩ default, .ret [x] default],
    default⟩, default⟩

/-- With two entries allowed there are three traces, for no round, one and two. The outcomes of the
call make seven of them, and the copy of two leaves has a point inside of its strand. -/
theorem pickingLoop_traces_spelled :
    (∀ s ∈ Registry.chooser.summaries, s.check = .ok ()) ∧
      ∃ rich l, FunctionDecl.pickingLoop.graph .chooser = .ok rich ∧
        rich.lower .chooser 2 = .ok l ∧ (rich.traces 2 none).length = 3 ∧
        (l.graph.traces 2 none).length = 7 ∧
        (∀ ops, (∃ trace ∈ l.graph.traces 2 none, trace.map Transition.op = ops) ↔
          ∃ trace ∈ rich.traces 2 none, ops ∈ l.spellings .chooser trace) ∧
        ∀ trace ∈ l.graph.traces 2 none, ∃ p, l.Represents (trace.last l.graph.root) p := by
  have hcounts : (do
      let rich ← FunctionDecl.pickingLoop.graph .chooser
      let l ← rich.lower .chooser 2
      return ((rich.traces 2 none).length, (l.graph.traces 2 none).length)) = .ok (3, 7) := by
    cbv
  have hreg : ∀ s ∈ Registry.chooser.summaries, s.check = .ok () := by
    intro s hs
    rw [List.mem_singleton.mp hs]
    rfl
  cases hf : FunctionDecl.pickingLoop.graph .chooser with
  | error e =>
      rw [hf] at hcounts
      cases hcounts
  | ok rich =>
      obtain ⟨l, hl, hspelled, hends, -⟩ := lowered_traces_spell_rich_traces hreg hf 2 2
      simp only [hf, hl, bind, Except.bind, pure, Except.pure, Except.ok.injEq,
        Prod.mk.injEq] at hcounts
      exact ⟨hreg, rich, l, rfl, hl, hcounts.1, hcounts.2, hspelled, hends⟩

end SliceLineage
