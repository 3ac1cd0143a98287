import SliceLineage.Lowering.Basic
import SliceLineage.Proofs.Flow.Growth
import SliceLineage.Proofs.Lowering.Chains

/-!
# What lowering puts into the primitive graph

* `Progress.Sound`: what holds at every moment of a lowering. Images are allocated points that
  belong to their rich points, and only leaves have cells.
* `Progress.Grows`: nothing that was put into the primitive graph is taken away or renumbered.
* `Progress.Carries`: a rich edge is there, as one path of cell operations for each outcome.
* `Lowering.edges_spec`: lowering edges fails at a cell operation and at nothing else; if it
  succeeds, the result carries every one of the edges.
-/

namespace SliceLineage

namespace Lowering

namespace Progress

structure Sound (rules : LeafRules) (s : Progress) : Prop where
  images : ∀ p q, s.images.lookup p = some q → s.origins[q.index]? = some p
  ops : s.cursor.graph.AllOps (·.isPrimitive = true)
  origins : s.origins.size = s.cursor.graph.pointCount
  cells : s.cells.Consistent
  leaves : ∀ x ∈ s.cells.selectors, x.isBlank = false ∧ rules.IsLeaf x

structure Grows (s s' : Progress) : Prop where
  graph : s.cursor.graph.Grows s'.cursor.graph
  images : ∀ p q, s.images.lookup p = some q → s'.images.lookup p = some q
  origins : ∀ (i : Nat) p, s.origins[i]? = some p → s'.origins[i]? = some p
  cells : s.cells.selectors <+: s'.cells.selectors

theorem Grows.refl (s : Progress) : s.Grows s :=
  ⟨.refl _, fun _ _ h => h, fun _ _ h => h, List.prefix_refl _⟩

theorem Grows.trans {s s' s'' : Progress} (h : s.Grows s') (h' : s'.Grows s'') : s.Grows s'' :=
  ⟨h.graph.trans h'.graph, fun p q hq => h'.images p q (h.images p q hq),
    fun i p hp => h'.origins i p (h.origins i p hp), h.cells.trans h'.cells⟩

theorem sound_start (rules : LeafRules) (rich : FlowGraph) : (start rich).Sound rules where
  images p q h := by
    by_cases hp : p = rich.root
    · have hq : (Cursor.start (rich.reference? rich.root)).current = q := by
        simpa [start, hp] using h
      have hroot : (Cursor.start (rich.reference? rich.root)).current = .root := by
        unfold Cursor.start
        split <;> rfl
      rw [← hq, hroot, hp]
      rfl
    · have : (p == rich.root) = false := beq_eq_false_iff_ne.mpr hp
      simp [start, List.lookup_cons, this] at h
  ops := Cursor.allOps_start _ _
  origins := by
    show 1 = (Cursor.start (rich.reference? rich.root)).graph.pointCount
    unfold Cursor.start
    split <;> rfl
  cells := .empty
  leaves := by simp [start, CellTable.empty]

/-- A chain of cell operations leads from `first` to `last`, perhaps with empty edges at its end,
through points that belong to `target`. -/
def Joined (s : Progress) (target first last : PointId) (chain : List Operation) : Prop :=
  ∃ ts k, s.cursor.graph.IsPath first ts last ∧
    ts.map Transition.op = chain ++ List.replicate k .noop ∧
    ∀ t ∈ ts, s.origins[t.target.index]? = some target

theorem Joined.grow {s s' : Progress} {target first last : PointId} {chain : List Operation}
    (h : s.Joined target first last chain) (hg : s.Grows s') :
    s'.Joined target first last chain := by
  obtain ⟨ts, k, hpath, hops, hpoints⟩ := h
  exact ⟨ts, k, hpath.grow hg.graph, hops, fun t ht => hg.origins _ _ (hpoints t ht)⟩

end Progress

variable {rules : LeafRules} {registry : Registry} (rich : FlowGraph)

theorem getElem?_push_of_eq_some {xs : Array PointId} {i : Nat} {p : PointId} (q : PointId)
    (h : xs[i]? = some p) : (xs.push q)[i]? = some p := by
  obtain ⟨hi, -⟩ := Array.getElem?_eq_some_iff.mp h
  rw [Array.getElem?_push, if_neg (Nat.ne_of_lt hi), h]

theorem lookup_append_singleton (images : List (PointId × PointId)) (p q o : PointId) :
    (images ++ [(p, q)]).lookup o = (images.lookup o).or (if o = p then some q else none) := by
  rw [List.lookup_append]
  by_cases h : o = p
  · simp [h]
  · simp [List.lookup_cons, beq_eq_false_iff_ne.mpr h, h]

theorem lookup_append_singleton_cases {images : List (PointId × PointId)} {p q o r : PointId}
    (h : (images ++ [(p, q)]).lookup o = some r) :
    images.lookup o = some r ∨ o = p ∧ r = q := by
  rw [lookup_append_singleton] at h
  cases ho : images.lookup o with
  | some r' =>
      rw [ho] at h
      exact Or.inl h
  | none =>
      rw [ho, Option.none_or] at h
      split at h
      · cases h
        exact Or.inr ⟨‹o = p›, rfl⟩
      · cases h

/-- The image of a point, new or old. -/
theorem image_spec {s : Progress} (hs : s.Sound rules) (p : PointId) :
    ∃ q s', (image rich p).run s = .ok (q, s') ∧ s'.Sound rules ∧ s.Grows s' ∧
      s'.images.lookup p = some q := by
  cases hp : s.images.lookup p with
  | some q =>
      refine ⟨q, s, ?_, hs, .refl s, hp⟩
      simp only [image, StateT.run_modifyGet, hp]
      rfl
  | none =>
      refine ⟨⟨s.cursor.graph.pointCount⟩, ⟨(s.cursor.reserve (rich.reference? p)).2, s.cells,
        s.images ++ [(p, ⟨s.cursor.graph.pointCount⟩)], s.origins.push p⟩, ?_, ?_, ?_, ?_⟩
      · simp only [image, StateT.run_modifyGet, hp]
        rfl
      · refine ⟨?_, hs.ops.allocate _, ?_, hs.cells, hs.leaves⟩
        · intro o q hq
          rcases lookup_append_singleton_cases hq with hq | ⟨rfl, rfl⟩
          · exact getElem?_push_of_eq_some p (hs.images o q hq)
          · simp [← hs.origins]
        · rw [Array.size_push, hs.origins]
          exact (FlowGraph.pointCount_allocate _ _).symm
      · refine ⟨FlowGraph.grows_allocate _ _, ?_, ?_, List.prefix_refl _⟩
        · intro o q hq
          rw [lookup_append_singleton, hq, Option.some_or]
        · exact fun i o ho => getElem?_push_of_eq_some p ho
      · rw [lookup_append_singleton, hp, if_pos rfl, Option.none_or]

/-- The computation puts a path of these operations between the current point and the next one,
through points that belong to `target`. -/
structure Puts (rules : LeafRules) (target : PointId) (m : Lower Unit) (ops : List Operation)
    (s s' : Progress) : Prop where
  runs : m.run s = .ok ((), s')
  sound : s'.Sound rules
  grows : s.Grows s'
  cells : s'.cells = s.cells
  path : ∃ ts, s'.cursor.graph.IsPath s.cursor.current ts s'.cursor.current ∧
    ts.map Transition.op = ops ∧ ∀ t ∈ ts, s'.origins[t.target.index]? = some target

theorem Puts.bind {target : PointId} {m m' : Lower Unit} {ops ops' : List Operation}
    {s s' s'' : Progress} (h : Puts rules target m ops s s')
    (h' : Puts rules target m' ops' s' s'') :
    Puts rules target (do m; m') (ops ++ ops') s s'' where
  runs := by rw [run_bind_of_ok h.runs, h'.runs]
  sound := h'.sound
  grows := h.grows.trans h'.grows
  cells := h'.cells.trans h.cells
  path := by
    obtain ⟨ts, hpath, hops, hpoints⟩ := h.path
    obtain ⟨us, hpath', hops', hpoints'⟩ := h'.path
    refine ⟨ts ++ us, (hpath.grow h'.grows.graph).append hpath', ?_, ?_⟩
    · rw [List.map_append, hops, hops']
    · intro t ht
      rcases List.mem_append.mp ht with ht | ht
      · exact h'.grows.origins _ _ (hpoints t ht)
      · exact hpoints' t ht

theorem inner_spec {s : Progress} (hs : s.Sound rules) (target : PointId) {op : Operation}
    (hop : op.isPrimitive = true) :
    ∃ s', Puts rules target (inner rich target op) [op] s s' ∧
      s'.cursor.current = ⟨s.cursor.graph.pointCount⟩ := by
  refine ⟨⟨s.cursor.append op (rich.reference? target), s.cells, s.images,
    s.origins.push target⟩, ⟨rfl, ?_, ?_, rfl, ?_⟩, rfl⟩
  · refine ⟨?_, Cursor.allOps_append hs.ops hop _, ?_, hs.cells, hs.leaves⟩
    · exact fun p q hq => getElem?_push_of_eq_some target (hs.images p q hq)
    · rw [Array.size_push, hs.origins, Cursor.pointCount_append]
  · exact ⟨Cursor.grows_append _ _ _, fun _ _ h => h,
      fun _ _ h => getElem?_push_of_eq_some target h, List.prefix_refl _⟩
  · refine ⟨[⟨⟨s.cursor.graph.pointCount⟩, op⟩],
      ⟨Cursor.mem_successors_append _ _ _, rfl⟩, rfl, ?_⟩
    intro t ht
    rw [List.mem_singleton.mp ht, ← hs.origins]
    exact Array.getElem?_push_size

theorem run_join {s : Progress} {stop : PointId} {answer : Except AnalysisError Unit} {c : Cursor}
    (h : s.cursor.join stop = (answer, c)) :
    (join stop).run s = answer.map fun _ => ((), { s with cursor := c }) := by
  show ((s.cursor.join stop).1 >>= fun a =>
    Except.ok (a, { s with cursor := (s.cursor.join stop).2 })) = _
  rw [h]
  cases answer <;> rfl

theorem run_link {s : Progress} {stop : PointId} (hne : stop ≠ s.cursor.current)
    (op : Operation) : (link op stop).run s =
      .ok ((), { s with cursor := ⟨s.cursor.graph.insert s.cursor.current stop op, stop⟩ }) := by
  show ((s.cursor.link op stop).1 >>= fun a =>
    Except.ok (a, { s with cursor := (s.cursor.link op stop).2 })) = _
  rw [Cursor.link_eq hne]
  rfl

theorem join_spec {s : Progress} (hs : s.Sound rules) {target stop : PointId}
    (hstop : s.origins[stop.index]? = some target) (hne : stop ≠ s.cursor.current) :
    ∃ s', Puts rules target (join stop) [.noop] s s' ∧ s'.cursor.current = stop := by
  obtain ⟨c, hc⟩ := Cursor.exists_join hne
  have hcurrent := (Cursor.join_cases hc).1
  refine ⟨⟨c, s.cells, s.images, s.origins⟩, ⟨run_join hc, ?_, ?_, rfl, ?_⟩, hcurrent⟩
  · refine ⟨hs.images, Cursor.allOps_join hc hs.ops rfl, ?_, hs.cells, hs.leaves⟩
    rw [hs.origins, Cursor.pointCount_join hc]
  · exact ⟨Cursor.grows_join hc, fun _ _ h => h, fun _ _ h => h, List.prefix_refl _⟩
  · refine ⟨[⟨stop, .noop⟩], ⟨Cursor.mem_successors_join hc, hcurrent.symm⟩, rfl, ?_⟩
    intro t ht
    rw [List.mem_singleton.mp ht]
    exact hstop

theorem link_spec {s : Progress} (hs : s.Sound rules) {target stop : PointId}
    (hstop : s.origins[stop.index]? = some target) (hne : stop ≠ s.cursor.current)
    {op : Operation} (hop : op.isPrimitive = true) :
    ∃ s', Puts rules target (link op stop) [op] s s' ∧ s'.cursor.current = stop := by
  refine ⟨⟨⟨s.cursor.graph.insert s.cursor.current stop op, stop⟩, s.cells, s.images,
    s.origins⟩, ⟨run_link hne op, ?_, ?_, rfl, ?_⟩, rfl⟩
  · exact ⟨hs.images, hs.ops.insert hop _ _, hs.origins, hs.cells, hs.leaves⟩
  · exact ⟨FlowGraph.grows_insert _ _ _ _, fun _ _ h => h, fun _ _ h => h, List.prefix_refl _⟩
  · refine ⟨[⟨stop, op⟩], ⟨FlowGraph.mem_successors_insert.mpr (Or.inr ⟨rfl, rfl⟩), rfl⟩, rfl, ?_⟩
    intro t ht
    rw [List.mem_singleton.mp ht]
    exact hstop

theorem Puts.of_run {target : PointId} {m m' : Lower Unit} {ops : List Operation}
    {s s' : Progress} (h : Puts rules target m ops s s') (hrun : m'.run s = m.run s) :
    Puts rules target m' ops s s' :=
  { h with runs := hrun.trans h.runs }

/-- An operation to a new point, and from there an empty edge to an image: so no edge has to lead
from a point to itself. -/
theorem inner_join_spec {s : Progress} (hs : s.Sound rules) {target stop : PointId}
    (hstop : s.origins[stop.index]? = some target) (op : Operation)
    (hop : op.isPrimitive = true) :
    ∃ s', Puts rules target (do inner rich target op; join stop) [op, .noop] s s' ∧
      s'.cursor.current = stop := by
  obtain ⟨s₁, hinner, hnew⟩ := inner_spec rich hs target hop
  have hne : stop ≠ s₁.cursor.current := by
    obtain ⟨hlt, -⟩ := Array.getElem?_eq_some_iff.mp hstop
    rw [hs.origins] at hlt
    rw [hnew]
    rintro rfl
    exact Nat.lt_irrefl _ hlt
  obtain ⟨s₂, hjoin, hcurrent⟩ :=
    join_spec hinner.sound (hinner.grows.origins _ _ hstop) hne
  exact ⟨s₂, hinner.bind hjoin, hcurrent⟩

theorem run_atPoint_bind {α : Type} (s : Progress) (q : PointId) (k : Bool → Lower α) :
    (atPoint q >>= k).run s = (k (decide (s.cursor.current = q))).run s := rfl

/-- **A chain is put into the graph without fail.** No edge from a point to itself is requested. -/
theorem putChain_spec {target stop : PointId} {chain : List Operation} :
    ∀ {s : Progress}, s.Sound rules → s.origins[stop.index]? = some target →
      (∀ op ∈ chain, op.isPrimitive = true) →
      ∃ k s', Puts rules target (putChain rich target stop chain)
        (chain ++ List.replicate k .noop) s s' ∧ s'.cursor.current = stop := by
  induction chain with
  | nil =>
      intro s hs hstop _
      by_cases hat : s.cursor.current = stop
      · obtain ⟨s', h, hcurrent⟩ := inner_join_spec rich hs hstop .noop rfl
        exact ⟨2, s', h.of_run (by simp only [putChain, run_atPoint_bind, hat]; rfl), hcurrent⟩
      · obtain ⟨s', h, hcurrent⟩ := join_spec hs hstop (Ne.symm hat)
        exact ⟨1, s', h.of_run (by simp only [putChain, run_atPoint_bind, hat]; rfl), hcurrent⟩
  | cons op rest ih =>
      intro s hs hstop hops
      have hop := hops op List.mem_cons_self
      cases rest with
      | nil =>
          by_cases hat : s.cursor.current = stop
          · obtain ⟨s', h, hcurrent⟩ := inner_join_spec rich hs hstop op hop
            exact ⟨1, s', h.of_run (by simp only [putChain, run_atPoint_bind, hat]; rfl), hcurrent⟩
          · obtain ⟨s', h, hcurrent⟩ := link_spec hs hstop (Ne.symm hat) hop
            exact ⟨0, s', h.of_run (by simp only [putChain, run_atPoint_bind, hat]; rfl), hcurrent⟩
      | cons next rest =>
          obtain ⟨s₁, hinner, -⟩ := inner_spec rich hs target hop
          obtain ⟨k, s₂, hput, hcurrent⟩ := ih hinner.sound (hinner.grows.origins _ _ hstop)
            fun o ho => hops o (List.mem_cons_of_mem _ ho)
          exact ⟨k, s₂, hinner.bind hput, hcurrent⟩

theorem moveTo_spec {s : Progress} (hs : s.Sound rules) (q : PointId) :
    ∃ s', (moveTo q).run s = .ok ((), s') ∧ s'.Sound rules ∧ s.Grows s' ∧ s'.cells = s.cells ∧
      s'.cursor.current = q :=
  ⟨{ s with cursor := s.cursor.moveTo q }, rfl,
    ⟨hs.images, hs.ops, hs.origins, hs.cells, hs.leaves⟩,
    ⟨⟨rfl, Nat.le_refl _, fun _ => List.prefix_refl _⟩, fun _ _ h => h, fun _ _ h => h,
      List.prefix_refl _⟩, rfl, rfl⟩

theorem putChains_spec (start : PointId) {stop target : PointId} {chains : List (List Operation)} :
    ∀ {s : Progress}, s.Sound rules → s.origins[stop.index]? = some target →
      (∀ chain ∈ chains, ∀ op ∈ chain, op.isPrimitive = true) →
      ∃ s', (putChains rich start stop target chains).run s = .ok ((), s') ∧ s'.Sound rules ∧
        s.Grows s' ∧ s'.cells = s.cells ∧
        ∀ chain ∈ chains, s'.Joined target start stop chain := by
  induction chains with
  | nil => exact fun {s} hs _ _ => ⟨s, rfl, hs, .refl s, rfl, by simp⟩
  | cons chain rest ih =>
      intro s hs hstop hops
      obtain ⟨s₁, hmove, hs₁, hg₁, hcells₁, hcurrent⟩ := moveTo_spec hs start
      obtain ⟨k, s₂, hput, hend⟩ := putChain_spec rich hs₁
        (hg₁.origins _ _ hstop) (hops chain List.mem_cons_self)
      obtain ⟨s₃, hrest, hs₃, hg₃, hcells₃, hjoined⟩ := ih hput.sound
        (hput.grows.origins _ _ (hg₁.origins _ _ hstop))
        fun c hc => hops c (List.mem_cons_of_mem _ hc)
      refine ⟨s₃, ?_, hs₃, (hg₁.trans hput.grows).trans hg₃, ?_, ?_⟩
      · rw [putChains, run_bind_of_ok hmove, run_bind_of_ok hput.runs, hrest]
      · rw [hcells₃, hput.cells, hcells₁]
      · intro c hc
        rcases List.mem_cons.mp hc with rfl | hc
        · obtain ⟨ts, hpath, hlabels, hpoints⟩ := hput.path
          rw [hcurrent, hend] at hpath
          exact Progress.Joined.grow ⟨ts, k, hpath, hlabels, hpoints⟩ hg₃
        · exact hjoined c hc

/-- The chains of an operation that the rules cover. -/
theorem chains_spec {s : Progress} (hs : s.Sound rules) {op : Operation}
    (hop : op.isMove = false) (hc : rules.Covers registry op) :
    ∃ s', (chains registry rules op).run s =
        .ok ((registry.outcomes op).map (rules.chain s'.cells op), s') ∧
      s'.Sound rules ∧ s.Grows s' ∧ ∀ x ∈ rules.touched registry op, s'.cells.Knows x := by
  obtain ⟨t, hrun, hi⟩ := (CellM.yields_chains hop hc.fits hc.returns).runs s.cells hs.cells
  refine ⟨{ s with cells := t }, ?_, ?_, ?_, hi.knows⟩
  · show (((CellM.chains registry rules op).run s.cells >>= fun r => Except.ok (r, s)) >>= fun r =>
      Except.ok (r.1.1, { s with cells := r.1.2 })) = _
    rw [hrun]
    rfl
  · refine ⟨hs.images, hs.ops, hs.origins, hi.consistent, ?_⟩
    intro x hx
    rcases hi.only x hx with hx | ⟨hx, hb⟩
    · exact hs.leaves x hx
    · exact ⟨hb, hc.leaves x hx hb⟩
  · exact ⟨.refl _, fun _ _ h => h, fun _ _ h => h, hi.grows⟩

/-- The primitive graph carries the rich edge from `p` by `t`: between the images of its ends there
is a path for each outcome of its operation. -/
structure Progress.Carries (registry : Registry) (rules : LeafRules) (s : Progress)
    (p : PointId) (t : Transition) : Prop where
  knows : ∀ x ∈ rules.touched registry t.op, s.cells.Knows x
  paths : ∃ first last, s.images.lookup p = some first ∧ s.images.lookup t.target = some last ∧
    ∀ outcome ∈ registry.outcomes t.op,
      s.Joined t.target first last (rules.chain s.cells t.op outcome)

theorem Progress.Carries.grow {s s' : Progress} {p : PointId} {t : Transition}
    (hop : t.op.isMove = false) (hc : rules.Covers registry t.op)
    (hs : s.Sound rules) (hs' : s'.Sound rules) (h : s.Carries registry rules p t)
    (hg : s.Grows s') : s'.Carries registry rules p t where
  knows x hx := (h.knows x hx).grow hg.cells
  paths := by
    obtain ⟨first, last, hfirst, hlast, hjoined⟩ := h.paths
    refine ⟨first, last, hg.images _ _ hfirst, hg.images _ _ hlast, fun outcome ho => ?_⟩
    have hstable := (CellM.yields_chains hop hc.fits hc.returns).stable s.cells s'.cells
      hs.cells hs'.cells hg.cells h.knows
    rw [List.map_inj_left.mp hstable outcome ho]
    exact (hjoined outcome ho).grow hg

/-- One edge is lowered, unless it carries a cell operation already. -/
theorem edge_spec (p : PointId) {s : Progress} (hs : s.Sound rules) {t : Transition}
    (hop : t.op.isMove = false) (hc : rules.Covers registry t.op) :
    ∃ s', (edge registry rules rich (p, t)).run s = .ok ((), s') ∧ s'.Sound rules ∧
      s.Grows s' ∧ s'.Carries registry rules p t := by
  obtain ⟨first, s₁, hrun₁, hs₁, hg₁, hfirst⟩ := image_spec rich hs p
  obtain ⟨last, s₂, hrun₂, hs₂, hg₂, hlast⟩ := image_spec rich hs₁ t.target
  obtain ⟨s₃, hrun₃, hs₃, hg₃, hknows⟩ := chains_spec hs₂ hop hc
  have hstop : s₃.origins[last.index]? = some t.target :=
    hs₃.images _ _ (hg₃.images _ _ hlast)
  have hprimitive : ∀ chain ∈ (registry.outcomes t.op).map (rules.chain s₃.cells t.op),
      ∀ op ∈ chain, op.isPrimitive = true := LeafRules.isPrimitive_of_mem_chains
  obtain ⟨s₄, hrun₄, hs₄, hg₄, hcells, hjoined⟩ :=
    putChains_spec rich first hs₃ hstop hprimitive
  refine ⟨s₄, ?_, hs₄, ((hg₁.trans hg₂).trans hg₃).trans hg₄, ?_, first, last, ?_, ?_, ?_⟩
  · rw [edge, run_bind_of_ok hrun₁, run_bind_of_ok hrun₂, run_bind_of_ok hrun₃, hrun₄]
  · intro x hx
    rw [hcells]
    exact hknows x hx
  · exact hg₄.images _ _ (hg₃.images _ _ (hg₂.images _ _ hfirst))
  · exact hg₄.images _ _ (hg₃.images _ _ hlast)
  · intro outcome ho
    rw [hcells]
    exact hjoined _ (List.mem_map_of_mem ho)

theorem edge_move {s : Progress} (hs : s.Sound rules) {p : PointId} {t : Transition}
    (hop : t.op.isMove = true) :
    (edge registry rules rich (p, t)).run s = .error (.internal (.cellOperation t.op)) := by
  obtain ⟨first, s₁, hrun₁, hs₁, -, -⟩ := image_spec rich hs p
  obtain ⟨last, s₂, hrun₂, -, -, -⟩ := image_spec rich hs₁ t.target
  rw [edge, run_bind_of_ok hrun₁, run_bind_of_ok hrun₂]
  cases hmove : t.op with
  | move source target step => rfl
  | assign | call | ret | noop => simp [hmove, Operation.isMove] at hop

/-- **Lowering edges fails at a cell operation and at nothing else.** If it succeeds, the primitive
graph carries every one of the edges. -/
theorem edges_spec {es : List (PointId × Transition)} :
    ∀ {s : Progress}, s.Sound rules → (∀ e ∈ es, rules.Covers registry e.2.op) →
      (∃ s', (edges registry rules rich es).run s = .ok ((), s') ∧ s'.Sound rules ∧ s.Grows s' ∧
        ∀ e ∈ es, e.2.op.isMove = false ∧ s'.Carries registry rules e.1 e.2) ∨
      ∃ e ∈ es, e.2.op.isMove = true ∧ (edges registry rules rich es).run s =
        .error (.internal (.cellOperation e.2.op)) := by
  induction es with
  | nil => exact fun {s} hs _ => Or.inl ⟨s, rfl, hs, .refl s, by simp⟩
  | cons e rest ih =>
      intro s hs hcovers
      obtain ⟨p, t⟩ := e
      cases hop : t.op.isMove with
      | true =>
          refine Or.inr ⟨(p, t), List.mem_cons_self, hop, ?_⟩
          rw [edges, StateT.run_bind, edge_move rich hs hop]
          rfl
      | false =>
          have hc := hcovers (p, t) List.mem_cons_self
          obtain ⟨s₁, hrun₁, hs₁, hg₁, hcarries⟩ := edge_spec rich p hs hop hc
          have hstep : (edges registry rules rich ((p, t) :: rest)).run s =
              (edges registry rules rich rest).run s₁ := by
            rw [edges, run_bind_of_ok hrun₁]
          rw [hstep]
          rcases ih hs₁ fun e he => hcovers e (List.mem_cons_of_mem _ he) with
            ⟨s₂, hrun₂, hs₂, hg₂, hall⟩ | ⟨e, he, hmove, herror⟩
          · refine Or.inl ⟨s₂, hrun₂, hs₂, hg₁.trans hg₂, fun e he => ?_⟩
            rcases List.mem_cons.mp he with rfl | he
            · exact ⟨hop, hcarries.grow hop hc hs₁ hs₂ hg₂⟩
            · exact hall e he
          · exact Or.inr ⟨e, List.mem_cons_of_mem _ he, hmove, herror⟩

end Lowering

namespace FlowGraph

variable {registry : Registry} {depth : Nat} {rich : FlowGraph}

theorem mem_reachableEdges_iff {p : PointId} {t : Transition} :
    (p, t) ∈ rich.reachableEdges ↔ rich.Reaches p ∧ t ∈ rich.successors p := by
  simp [reachableEdges, mem_reachable_iff]

/-- A lowering that came to its end carries all reachable edges. -/
structure Lowered (registry : Registry) (depth : Nat) (rich : FlowGraph)
    (s : Lowering.Progress) : Prop where
  runs : (Lowering.edges registry (leafRules depth (rich.assignments registry)) rich
    rich.reachableEdges).run (.start rich) = .ok ((), s)
  sound : s.Sound (leafRules depth (rich.assignments registry))
  grows : (Lowering.Progress.start rich).Grows s
  carries : ∀ p, rich.Reaches p → ∀ t ∈ rich.successors p, t.op.isMove = false ∧
    s.Carries registry (leafRules depth (rich.assignments registry)) p t

/-- **Lowering fails at a reachable cell operation and at nothing else.** -/
theorem lower_cases (registry : Registry) (depth : Nat) (rich : FlowGraph) :
    (∃ s, rich.lower registry depth = .ok ⟨s.cursor.graph, s.origins, s.cells,
        leafRules depth (rich.assignments registry)⟩ ∧ Lowered registry depth rich s) ∨
    ∃ p t, rich.Reaches p ∧ t ∈ rich.successors p ∧ t.op.isMove = true ∧
      rich.lower registry depth = .error (.internal (.cellOperation t.op)) := by
  have hcovers : ∀ e ∈ rich.reachableEdges,
      (leafRules depth (rich.assignments registry)).Covers registry e.2.op :=
    fun e he => covers_of_mem_successors registry depth (mem_reachableEdges_iff.mp he).2
  rcases Lowering.edges_spec rich (Lowering.Progress.sound_start _ rich) hcovers with
    ⟨s, hrun, hs, hg, hall⟩ | ⟨⟨p, t⟩, he, hmove, herror⟩
  · refine Or.inl ⟨s, ?_, hrun, hs, hg, fun p hp t ht =>
      hall (p, t) (mem_reachableEdges_iff.mpr ⟨hp, ht⟩)⟩
    simp only [lower, hrun]
    rfl
  · obtain ⟨hp, ht⟩ := mem_reachableEdges_iff.mp he
    refine Or.inr ⟨p, t, hp, ht, hmove, ?_⟩
    simp only [lower, herror]
    rfl

theorem lookup_start (rich : FlowGraph) : (Lowering.Progress.start rich).images.lookup rich.root =
    some (Lowering.Progress.start rich).cursor.graph.root := List.lookup_cons_self

theorem Lowered.exists_image {s : Lowering.Progress} (h : Lowered registry depth rich s)
    {p : PointId} (hp : rich.Reaches p) : ∃ q, s.images.lookup p = some q := by
  cases hp with
  | refl => exact ⟨_, h.grows.images _ _ (lookup_start rich)⟩
  | tail hr hq =>
      obtain ⟨t, ht, rfl⟩ := List.mem_map.mp hq
      obtain ⟨_, last, -, hlast, -⟩ := (h.carries _ hr t ht).2.paths
      exact ⟨last, hlast⟩

theorem Lowered.image_root {s : Lowering.Progress} (h : Lowered registry depth rich s) :
    s.images.lookup rich.root = some s.cursor.graph.root := by
  rw [h.grows.graph.root]
  exact h.grows.images _ _ (lookup_start rich)

/-- A graph without cell operations can be lowered. -/
theorem exists_lower (registry : Registry) (depth : Nat) (h : rich.AllOps (·.isMove = false)) :
    ∃ l, rich.lower registry depth = .ok l ∧
      l.rules = leafRules depth (rich.assignments registry) := by
  rcases rich.lower_cases registry depth with ⟨s, hs, -⟩ | ⟨p, t, -, ht, hmove, -⟩
  · exact ⟨_, hs, rfl⟩
  · rw [h p t ht] at hmove
    cases hmove

end FlowGraph

/-! ## Emitted chains -/

namespace Lowering

/-- The chains of cell operations of a rich operation, in the cells of the lowering. -/
def chainsOf (l : Lowering) (registry : Registry) (op : Operation) : List (List Operation) :=
  match (CellM.chains registry l.rules op).run l.cells with
  | .ok (chains, _) => chains
  | .error _ => []

/-- What a lowering in progress becomes. -/
def Progress.lowering (s : Progress) (rules : LeafRules) : Lowering :=
  ⟨s.cursor.graph, s.origins, s.cells, rules⟩

end Lowering

namespace FlowGraph

variable {registry : Registry} {depth : Nat} {rich : FlowGraph} {s : Lowering.Progress}

/-- The chains of an edge can be read off the finished table of cells. -/
theorem Lowered.chainsOf_eq (h : Lowered registry depth rich s) {p : PointId}
    (hp : rich.Reaches p) {t : Transition} (ht : t ∈ rich.successors p) :
    (s.lowering (leafRules depth (rich.assignments registry))).chainsOf registry t.op =
      (registry.outcomes t.op).map
        ((leafRules depth (rich.assignments registry)).chain s.cells t.op) := by
  obtain ⟨hop, hcarries⟩ := h.carries p hp t ht
  have hc := covers_of_mem_successors registry depth ht
  have hyields := CellM.yields_chains hop hc.fits hc.returns
  obtain ⟨cells, hrun, hi⟩ := hyields.runs s.cells h.sound.cells
  have hrun : (CellM.chains registry (s.lowering (leafRules depth
      (rich.assignments registry))).rules t.op).run s.cells = _ := hrun
  rw [Lowering.chainsOf, show (s.lowering _).cells = s.cells from rfl, hrun]
  exact hyields.stable s.cells cells h.sound.cells hi.consistent hi.grows hcarries.knows

end FlowGraph

end SliceLineage
