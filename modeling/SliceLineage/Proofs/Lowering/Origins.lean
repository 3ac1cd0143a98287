import Mathlib
import SliceLineage.Proofs.Lowering.Acyclic
import SliceLineage.Proofs.Summary.Registration

/-!
# Primitive points and the rich points they belong to

A warning about a primitive graph is reported at a rich point, with the span of that point. So each
point that a lowering makes has to be recorded with the rich point that it belongs to, on whichever
way it is made: as an image, inside of a chain, or to keep an edge from leading back to its start.

* `Progress.StandsFor`: an edge of the primitive graph belongs to an edge of the rich graph.
* `Progress.Faithful`: the points made so far belong to reachable points and carry their spans.
* `Lowering.edges_faithful`: lowering edges keeps it so.
* `FlowGraph.positions_faithful`: the result, with the paths between images.
-/

namespace SliceLineage

/-- Only the new point may get another span. -/
theorem FlowGraph.reference?_allocate_eq (g : FlowGraph) (span : Option Span) (q : PointId) :
    (g.allocate span).2.reference? q =
      if q = ⟨g.pointCount⟩ then span.or (g.reference? q) else g.reference? q := by
  cases span with
  | none => rw [Option.none_or, ite_self]; rfl
  | some span =>
      refine (reference?_setReference _ _ _ _).trans ?_
      simp only [eq_comm, Option.some_or]
      rfl

namespace Lowering.Progress

/-- Of an edge of the rich graph that can be reached, the primitive edge is a part: it ends at a
point that belongs to the target, and begins at one that belongs to either end. It is no loop. -/
def StandsFor (rich : FlowGraph) (s : Progress) (x : PointId) (u : Transition) : Prop :=
  u.target ≠ x ∧ ∃ p t, rich.Reaches p ∧ t ∈ rich.successors p ∧
    s.origins[u.target.index]? = some t.target ∧
    (s.origins[x.index]? = some p ∨ s.origins[x.index]? = some t.target)

/-- The points belong to reachable rich points and carry the spans of these, and the edges stand for
rich ones. Nothing is known of points that were not made yet. -/
structure Faithful (rich : FlowGraph) (s : Progress) : Prop where
  sized : s.origins.size = s.cursor.graph.pointCount
  reaches : ∀ (i : Nat) p, s.origins[i]? = some p → rich.Reaches p
  spans : ∀ (q : PointId) p, s.origins[q.index]? = some p →
    s.cursor.graph.reference? q = rich.reference? p
  unmade : ∀ q : PointId, s.cursor.graph.pointCount ≤ q.index → s.cursor.graph.reference? q = none
  edges : ∀ x, ∀ u ∈ s.cursor.graph.successors x, s.StandsFor rich x u

/-- Points keep what they belong to. -/
def KeepsOrigins (s s' : Progress) : Prop :=
  ∀ (i : Nat) p, s.origins[i]? = some p → s'.origins[i]? = some p

variable {rich : FlowGraph} {s s' : Progress} {p q x stop : PointId} {t u : Transition}
  {op : Operation}

theorem StandsFor.mono (h : s.StandsFor rich x u) (hk : s.KeepsOrigins s') :
    s'.StandsFor rich x u := by
  obtain ⟨hne, p, t, hp, ht, htarget, hsource⟩ := h
  exact ⟨hne, p, t, hp, ht, hk _ _ htarget, hsource.imp (hk _ _) (hk _ _)⟩

theorem keepsOrigins_push (h : s'.origins = s.origins.push p) : s.KeepsOrigins s' := by
  intro i o ho
  rw [h]
  exact getElem?_push_of_eq_some p ho

theorem faithful_start (rich : FlowGraph) : (start rich).Faithful rich := by
  have hpoints : (start rich).cursor.graph.pointCount = 1 := by
    show (Cursor.start (rich.reference? rich.root)).graph.pointCount = 1
    cases rich.reference? rich.root <;> rfl
  have hspan : ∀ q, (start rich).cursor.graph.reference? q =
      if q = .root then rich.reference? rich.root else none := by
    intro q
    show (Cursor.start (rich.reference? rich.root)).graph.reference? q = _
    cases rich.reference? rich.root with
    | none => simp [Cursor.start, FlowGraph.reference?, FlowGraph.empty]
    | some span =>
        refine (FlowGraph.reference?_setReference _ _ _ _).trans ?_
        simp [FlowGraph.reference?, FlowGraph.empty, eq_comm]
  have horigin : ∀ (i : Nat) p, (start rich).origins[i]? = some p → i = 0 ∧ p = rich.root := by
    intro i p hp
    obtain ⟨hlt, rfl⟩ := Array.getElem?_eq_some_iff.mp hp
    obtain rfl : i = 0 := Nat.lt_one_iff.mp hlt
    exact ⟨rfl, rfl⟩
  refine ⟨hpoints.symm, fun i p hp => ?_, fun q p hp => ?_, fun q hq => ?_, fun x u hu => ?_⟩
  · rw [(horigin i p hp).2]
    exact .root rich
  · obtain ⟨hq, rfl⟩ := horigin q.index p hp
    rw [hspan, if_pos (by cases q; exact congrArg PointId.mk hq)]
  · rw [hspan, if_neg]
    rintro rfl
    rw [hpoints] at hq
    cases hq
  · rw [show (start rich).cursor.graph.successors x = [] from Cursor.successors_start _ x] at hu
    cases hu

/-- One more point, for a rich point that can be reached and with its span. -/
theorem Faithful.make (hf : s.Faithful rich) (hp : rich.Reaches p)
    (horigins : s'.origins = s.origins.push p)
    (hpoints : s'.cursor.graph.pointCount = s.cursor.graph.pointCount + 1)
    (hspans : ∀ q, s'.cursor.graph.reference? q =
      (s.cursor.graph.allocate (rich.reference? p)).2.reference? q)
    (hedges : ∀ x, ∀ u ∈ s'.cursor.graph.successors x,
      u ∈ s.cursor.graph.successors x ∨ s'.StandsFor rich x u) : s'.Faithful rich where
  sized := by rw [horigins, hpoints, Array.size_push, hf.sized]
  reaches i o ho := by
    rw [horigins, Array.getElem?_push] at ho
    split at ho
    · exact Option.some.inj ho ▸ hp
    · exact hf.reaches i o ho
  spans q o ho := by
    rw [hspans, FlowGraph.reference?_allocate_eq]
    rw [horigins, Array.getElem?_push, hf.sized] at ho
    by_cases hq : q.index = s.cursor.graph.pointCount
    · rw [if_pos hq] at ho
      rw [if_pos (by cases q; exact congrArg PointId.mk hq), hf.unmade q (Nat.le_of_eq hq.symm),
        Option.or_none, Option.some.inj ho]
    · rw [if_neg hq] at ho
      rw [if_neg (by rintro rfl; exact hq rfl)]
      exact hf.spans q o ho
  unmade q hq := by
    rw [hpoints] at hq
    rw [hspans, FlowGraph.reference?_allocate_eq, if_neg (by rintro rfl; simp at hq),
      hf.unmade q (by omega)]
  edges x u hu := (hedges x u hu).elim
    (fun hu => (hf.edges x u hu).mono (keepsOrigins_push horigins)) id

theorem Faithful.expose (hf : s.Faithful rich) (hp : rich.Reaches p) :
    (s.expose rich p).Faithful rich :=
  hf.make hp rfl (FlowGraph.pointCount_allocate _ _) (fun _ => rfl) fun x _ hu =>
    Or.inl (FlowGraph.successors_allocate _ _ x ▸ hu)

/-- Between the images of the two ends of an edge: the current point belongs to one of them, and
`stop` to the target. -/
structure Underway (rich : FlowGraph) (p : PointId) (t : Transition) (stop : PointId)
    (s : Progress) : Prop where
  faithful : s.Faithful rich
  current : s.origins[s.cursor.current.index]? = some p ∨
    s.origins[s.cursor.current.index]? = some t.target
  stop : s.origins[stop.index]? = some t.target

/-- A new point is another one than those in use. -/
theorem Faithful.ne_new (hf : s.Faithful rich) {o : PointId} (hq : s.origins[q.index]? = some o) :
    q ≠ ⟨s.cursor.graph.pointCount⟩ := by
  rintro rfl
  obtain ⟨hlt, -⟩ := Array.getElem?_eq_some_iff.mp hq
  rw [hf.sized] at hlt
  exact Nat.lt_irrefl _ hlt

section

variable (hp : rich.Reaches p) (ht : t ∈ rich.successors p)

include hp ht

/-- An operation to a new point inside a chain. -/
theorem Underway.advance (h : s.Underway rich p t stop) (op : Operation) :
    (s.advance rich t.target op).Underway rich p t stop := by
  have hkeeps : s.KeepsOrigins (s.advance rich t.target op) := keepsOrigins_push rfl
  have hnew : (s.advance rich t.target op).origins[s.cursor.graph.pointCount]? =
      some t.target := by
    show (s.origins.push t.target)[s.cursor.graph.pointCount]? = some t.target
    rw [← h.faithful.sized]
    exact Array.getElem?_push_size
  refine ⟨?_, Or.inr hnew, hkeeps _ _ h.stop⟩
  refine h.faithful.make (hp.step ht) rfl (pointCount_advance rich s t.target op) (fun _ => rfl)
    fun x u hu => ?_
  rw [successors_advance] at hu
  split at hu
  · rename_i hx
    subst hx
    refine (List.mem_append.mp hu).imp id fun hu => ?_
    rw [List.mem_singleton.mp hu]
    have hne := h.current.elim h.faithful.ne_new h.faithful.ne_new
    exact ⟨hne.symm, p, t, hp, ht, hnew, h.current.imp (hkeeps _ _) (hkeeps _ _)⟩
  · exact Or.inl hu

/-- An operation to the image of the target. -/
theorem Underway.attach (h : s.Underway rich p t stop) (hne : stop ≠ s.cursor.current)
    (op : Operation) : (s.attach stop op).Faithful rich := by
  refine ⟨h.faithful.sized, h.faithful.reaches, h.faithful.spans, h.faithful.unmade,
    fun x u hu => ?_⟩
  rw [successors_attach] at hu
  split at hu
  · rename_i hx
    subst hx
    rcases List.mem_append.mp hu with hu | hu
    · exact h.faithful.edges _ u hu
    · rw [List.mem_singleton.mp hu]
      exact ⟨hne, p, t, hp, ht, h.stop, h.current⟩
  · exact h.faithful.edges x u hu

end

end Lowering.Progress

namespace Lowering

open Progress (Faithful KeepsOrigins Underway)

variable {rules : LeafRules} {registry : Registry} {rich : FlowGraph} {p start stop : PointId}
  {t : Transition}

section

variable (hp : rich.Reaches p) (ht : t ∈ rich.successors p)

include hp ht

/-- Joining the image of the target, by a new edge or one that is there. -/
theorem join_faithful {s s' : Progress} (h : s.Underway rich p t stop)
    (hne : stop ≠ s.cursor.current) (hrun : (join stop).run s = .ok ((), s')) :
    s'.Faithful rich ∧ s.KeepsOrigins s' := by
  have hf := h.faithful
  rcases attach_of_run_join hrun with rfl | ⟨-, rfl⟩
  · exact ⟨h.attach hp ht hne .noop, fun _ _ h => h⟩
  · exact ⟨⟨hf.sized, hf.reaches, hf.spans, hf.unmade, hf.edges⟩, fun _ _ h => h⟩

theorem inner_join_faithful {s s' : Progress} (h : s.Underway rich p t stop) (op : Operation)
    (hrun : (do inner rich t.target op; join stop : Lower Unit).run s = .ok ((), s')) :
    s'.Faithful rich ∧ s.KeepsOrigins s' := by
  have hjoin : (join stop).run (s.advance rich t.target op) = .ok ((), s') := hrun
  obtain ⟨hf, hkeeps⟩ :=
    join_faithful hp ht (h.advance hp ht op) (h.faithful.ne_new h.stop) hjoin
  exact ⟨hf, fun i o ho => hkeeps i o (Progress.keepsOrigins_push rfl i o ho)⟩

/-- **Putting a chain keeps the points faithful.** -/
theorem putChain_faithful {chain : List Operation} :
    ∀ {s s' : Progress}, s.Underway rich p t stop →
      (putChain rich t.target stop chain).run s = .ok ((), s') →
      s'.Faithful rich ∧ s.KeepsOrigins s' := by
  induction chain with
  | nil =>
      intro s s' h hrun
      by_cases hat : s.cursor.current = stop
      · simp only [putChain, run_atPoint_bind, hat] at hrun
        exact inner_join_faithful hp ht h .noop hrun
      · simp only [putChain, run_atPoint_bind, hat] at hrun
        exact join_faithful hp ht h (Ne.symm hat) hrun
  | cons op rest ih =>
      intro s s' h hrun
      cases rest with
      | nil =>
          by_cases hat : s.cursor.current = stop
          · simp only [putChain, run_atPoint_bind, hat] at hrun
            exact inner_join_faithful hp ht h op hrun
          · simp only [putChain, run_atPoint_bind, hat] at hrun
            cases (run_link (Ne.symm hat) op).symm.trans hrun
            exact ⟨h.attach hp ht (Ne.symm hat) op, fun _ _ h => h⟩
      | cons next rest =>
          obtain ⟨hf, hkeeps⟩ := ih (h.advance hp ht op) hrun
          exact ⟨hf, fun i o ho => hkeeps i o (Progress.keepsOrigins_push rfl i o ho)⟩

theorem putChains_faithful {chains : List (List Operation)} :
    ∀ {s s' : Progress}, s.Faithful rich → s.origins[start.index]? = some p →
      s.origins[stop.index]? = some t.target →
      (putChains rich start stop t.target chains).run s = .ok ((), s') → s'.Faithful rich := by
  induction chains with
  | nil =>
      intro s s' hf _ _ hrun
      cases hrun
      exact hf
  | cons chain rest ih =>
      intro s s' hf hstart hstop hrun
      have hmoved : Underway rich p t stop { s with cursor := s.cursor.moveTo start } :=
        ⟨⟨hf.sized, hf.reaches, hf.spans, hf.unmade, hf.edges⟩, Or.inl hstart, hstop⟩
      have hrun : (putChain rich t.target stop chain >>= fun _ =>
          putChains rich start stop t.target rest).run
            { s with cursor := s.cursor.moveTo start } = .ok ((), s') := hrun
      rw [StateT.run_bind] at hrun
      cases hput : (putChain rich t.target stop chain).run
          { s with cursor := s.cursor.moveTo start } with
      | error e =>
          rw [hput] at hrun
          cases hrun
      | ok r =>
          rw [hput] at hrun
          obtain ⟨hf₁, hkeeps⟩ := putChain_faithful hp ht hmoved hput
          exact ih hf₁ (hkeeps _ _ hstart) (hkeeps _ _ hstop) hrun

end

theorem image_faithful {s s' : Progress} {q : PointId} (hf : s.Faithful rich)
    (hp : rich.Reaches p) (hrun : (image rich p).run s = .ok (q, s')) : s'.Faithful rich := by
  rcases run_image rich hrun with rfl | ⟨-, rfl⟩
  · exact hf
  · exact hf.expose hp

theorem chains_faithful {s s' : Progress} {op : Operation} {result : List (List Operation)}
    (hf : s.Faithful rich) (hrun : (chains registry rules op).run s = .ok (result, s')) :
    s'.Faithful rich := by
  have hbind : (((CellM.chains registry rules op).run s.cells >>= fun r => Except.ok (r, s)) >>=
      fun r => Except.ok (r.1.1, { s with cells := r.1.2 })) = Except.ok (result, s') := hrun
  cases hcells : (CellM.chains registry rules op).run s.cells with
  | error e =>
      rw [hcells] at hbind
      cases hbind
  | ok r =>
      rw [hcells] at hbind
      cases hbind
      exact ⟨hf.sized, hf.reaches, hf.spans, hf.unmade, hf.edges⟩

/-- **Lowering an edge keeps the points faithful.** -/
theorem edge_faithful {s s' : Progress} (hs : s.Sound rules) (hf : s.Faithful rich)
    (hp : rich.Reaches p) (ht : t ∈ rich.successors p) (hop : t.op.isMove = false)
    (hc : rules.Covers registry t.op)
    (hrun : (edge registry rules rich (p, t)).run s = .ok ((), s')) : s'.Faithful rich := by
  obtain ⟨start, s₁, hrun₁, hs₁, hg₁, hstart⟩ := image_spec rich hs p
  obtain ⟨stop, s₂, hrun₂, hs₂, hg₂, hstop⟩ := image_spec rich hs₁ t.target
  obtain ⟨s₃, hrun₃, hs₃, hg₃, -⟩ := chains_spec hs₂ hop hc
  have hf₃ : s₃.Faithful rich :=
    chains_faithful (image_faithful (image_faithful hf hp hrun₁) (hp.step ht) hrun₂) hrun₃
  rw [edge, run_bind_of_ok hrun₁, run_bind_of_ok hrun₂, run_bind_of_ok hrun₃] at hrun
  exact putChains_faithful hp ht hf₃
    (hs₃.images _ _ (hg₃.images _ _ (hg₂.images _ _ hstart)))
    (hs₃.images _ _ (hg₃.images _ _ hstop)) hrun

theorem edges_faithful {es : List (PointId × Transition)} :
    ∀ {s s' : Progress}, s.Sound rules → s.Faithful rich →
      (∀ e ∈ es, (rich.Reaches e.1 ∧ e.2 ∈ rich.successors e.1) ∧ e.2.op.isMove = false ∧
        rules.Covers registry e.2.op) →
      (edges registry rules rich es).run s = .ok ((), s') → s'.Faithful rich := by
  induction es with
  | nil =>
      intro s s' _ hf _ hrun
      cases hrun
      exact hf
  | cons e rest ih =>
      intro s s' hs hf hes hrun
      obtain ⟨⟨hp, ht⟩, hop, hc⟩ := hes e List.mem_cons_self
      obtain ⟨s₁, hrun₁, hs₁, -, -⟩ := edge_spec rich e.1 hs hop hc
      rw [edges, run_bind_of_ok hrun₁] at hrun
      exact ih hs₁ (edge_faithful hs hf hp ht hop hc hrun₁)
        (fun e he => hes e (List.mem_cons_of_mem _ he)) hrun

end Lowering

namespace FlowGraph

variable {registry : Registry} {depth : Nat} {rich : FlowGraph} {s : Lowering.Progress}
  {drawn : List Strand}

theorem Lowered.faithful (h : Lowered registry depth rich s) : s.Faithful rich := by
  refine Lowering.edges_faithful (Lowering.Progress.sound_start _ rich)
    (Lowering.Progress.faithful_start rich) (fun e he => ?_) h.runs
  obtain ⟨hp, ht⟩ := mem_reachableEdges_iff.mp he
  exact ⟨⟨hp, ht⟩, (h.carries _ hp _ ht).1, covers_of_mem_successors registry depth ht⟩

/-- Each outcome of an edge has a path between the images of its ends. -/
theorem Spun.exists_path_of_outcome (h : Spun registry depth rich s drawn) {p start stop : PointId}
    {t : Transition} (hp : rich.Reaches p) (ht : t ∈ rich.successors p)
    (hstart : s.images.lookup p = some start) (hstop : s.images.lookup t.target = some stop)
    {outcome : List BoundAssignment} (ho : outcome ∈ registry.outcomes t.op) :
    ∃ path, path ≠ [] ∧ s.cursor.graph.IsPath start path stop ∧
      ∀ u ∈ path, s.origins[u.target.index]? = some t.target := by
  obtain ⟨st, hst, rfl, htarget, -⟩ :=
    h.weaves.all _ (mem_reachableEdges_iff.mpr ⟨hp, ht⟩) outcome ho
  refine ⟨st.trace, List.cons_ne_nil _ _, h.isPath hst hstart (htarget ▸ hstop), ?_⟩
  exact htarget ▸ (h.woven.holds st hst).origins

/-- **Every primitive point belongs to a rich one.** A lowering maps each point of its graph to a
reachable point of the rich graph, with the same span. Back, each reachable rich point has an image
of its own that is mapped to it, the root that of the root, and each edge from it has a path between
the images of its ends, through points that belong to its target. Every primitive edge is a part of
an edge that can be reached, carries a cell operation, a return or nothing, and is no loop. -/
theorem positions_faithful {l : Lowering} (hreg : ∀ s ∈ registry.summaries, s.check = .ok ())
    (hl : rich.lower registry depth = .ok l) :
    (∀ q, l.graph.contains q = true → ∃ p, l.origin? q = some p ∧ rich.Reaches p ∧
      l.graph.reference? q = rich.reference? p) ∧
    (∃ image : PointId → PointId, image rich.root = l.graph.root ∧
      (∀ p p', rich.Reaches p → rich.Reaches p' → image p = image p' → p = p') ∧
      ∀ p, rich.Reaches p → l.graph.contains (image p) = true ∧ l.origin? (image p) = some p ∧
        ∀ t ∈ rich.successors p, ∃ path, path ≠ [] ∧
          l.graph.IsPath (image p) path (image t.target) ∧
          ∀ u ∈ path, l.origin? u.target = some t.target) ∧
    ∀ x u, (x, u) ∈ l.graph.edges → u.op.isPrimitive = true ∧ u.target ≠ x ∧
      ∃ p t, rich.Reaches p ∧ t ∈ rich.successors p ∧ l.origin? u.target = some t.target ∧
        (l.origin? x = some p ∨ l.origin? x = some t.target) := by
  obtain ⟨s, drawn, h, rfl⟩ := exists_spun hl
  have hf := h.lowered.faithful
  have hs := h.lowered.sound
  obtain ⟨image, himage⟩ : ∃ image : PointId → PointId, ∀ p, rich.Reaches p →
      s.images.lookup p = some (image p) := by
    refine ⟨fun p => (s.images.lookup p).getD .root, fun p hp => ?_⟩
    obtain ⟨q, hq⟩ := h.lowered.exists_image hp
    simp only [hq, Option.getD_some]
  refine ⟨fun q hq => ?_, ⟨image, ?_, ?_, fun p hp => ?_⟩, fun x u hu => ?_⟩
  · have hlt : q.index < s.origins.size := hf.sized ▸ of_decide_eq_true hq
    have horigin := Array.getElem?_eq_getElem hlt
    exact ⟨_, horigin, hf.reaches _ _ horigin, hf.spans q _ horigin⟩
  · exact Option.some.inj ((himage _ (.root rich)).symm.trans h.lowered.image_root)
  · intro p p' hp hp' heq
    exact hs.eq_of_image (himage p hp) (heq ▸ himage p' hp')
  · have horigin := hs.images p _ (himage p hp)
    obtain ⟨hlt, -⟩ := Array.getElem?_eq_some_iff.mp horigin
    refine ⟨decide_eq_true (hf.sized ▸ hlt), horigin, fun t ht => ?_⟩
    obtain ⟨outcome, ho⟩ := List.exists_mem_of_ne_nil _
      (Registry.outcomes_ne_nil hreg (h.lowered.carries p hp t ht).1)
    exact h.exists_path_of_outcome hp ht (himage p hp) (himage _ (hp.step ht)) ho
  · have hmem := mem_edges.mp hu
    obtain ⟨hne, hrest⟩ := hf.edges x u hmem
    exact ⟨hs.ops x u hmem, hne, hrest⟩

/-- A value with two fields is copied, one field of the copy is read, and the other one is grown
again and again, without leaving the point. Nothing leads to the last point. -/
def growingInPlace : FlowGraph :=
  let copied := (Cursor.start (some (.ofLine 1))).append
    (.assign (.whole (.tracked 0)) (.whole (.tracked 1))) (some (.ofLine 2))
  let read := copied.append (.assign ⟨.tracked 1, ["f"]⟩ (.whole (.tracked 2))) none
  let grown := read.graph.insert read.current read.current
    (.call ⟨1⟩ [.of ⟨.tracked 1, ["g"]⟩] [.tracked 3])
  grown.insert ⟨7⟩ read.current .noop

/-- The copy of two leaves and the growth in place have a point inside each, and the lines of the
rich points are found at all five. -/
theorem growingInPlace_positions :
    (∀ s ∈ Registry.builtin.summaries, s.check = .ok ()) ∧
      ∃ l, growingInPlace.lower .builtin 2 = .ok l ∧
        l.graph.contains ⟨4⟩ = true ∧ l.graph.contains ⟨5⟩ = false ∧
        (∀ q, l.graph.contains q = true → ∃ p, l.origin? q = some p ∧ growingInPlace.Reaches p ∧
          l.graph.reference? q = growingInPlace.reference? p) ∧
        (∃ image path, l.origin? image = some ⟨2⟩ ∧ path ≠ [] ∧
          l.graph.IsPath image path image ∧ ∀ u ∈ path, l.origin? u.target = some ⟨2⟩) ∧
        ∀ x u, (x, u) ∈ l.graph.edges → u.op.isPrimitive = true ∧ u.target ≠ x := by
  have hreg := Registry.Consistent.builtin.checked
  have hcount : (do
      let l ← growingInPlace.lower .builtin 2
      return l.graph.pointCount) = .ok 5 := by
    cbv
  have hcopy : ⟨⟨1⟩, .assign (.whole (.tracked 0)) (.whole (.tracked 1))⟩ ∈
      growingInPlace.successors growingInPlace.root := by decide +kernel
  have hread : ⟨⟨2⟩, .assign ⟨.tracked 1, ["f"]⟩ (.whole (.tracked 2))⟩ ∈
      growingInPlace.successors ⟨1⟩ := by decide +kernel
  have hgrow : ⟨⟨2⟩, .call ⟨1⟩ [.of ⟨.tracked 1, ["g"]⟩] [.tracked 3]⟩ ∈
      growingInPlace.successors ⟨2⟩ := by decide +kernel
  cases hl : growingInPlace.lower .builtin 2 with
  | error e =>
      rw [hl] at hcount
      cases hcount
  | ok l =>
      rw [hl] at hcount
      have hpoints : l.graph.pointCount = 5 := Except.ok.inj hcount
      obtain ⟨htotal, ⟨image, -, -, himage⟩, hedges⟩ := positions_faithful hreg hl
      have hreaches : growingInPlace.Reaches ⟨2⟩ := ((Reaches.root _).step hcopy).step hread
      obtain ⟨-, horigin, hpaths⟩ := himage ⟨2⟩ hreaches
      obtain ⟨path, hpath⟩ := hpaths _ hgrow
      refine ⟨hreg, l, rfl, ?_, ?_, htotal, ⟨image ⟨2⟩, path, horigin, hpath⟩, fun x u hu => ?_⟩
      · rw [contains, hpoints]
        rfl
      · rw [contains, hpoints]
        rfl
      · exact ⟨(hedges x u hu).1, (hedges x u hu).2.1⟩

end FlowGraph

end SliceLineage
