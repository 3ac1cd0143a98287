import SliceLineage.Proofs.Lowering.Emission

/-!
# Strands of a primitive graph

Lowering puts strands between the images of rich points: for each way in which a rich edge can go,
the operations of its chain one after the other, through points that nothing else leads to or from.
The primitive graph consists of these strands and of nothing else.

* `Strand`, `padded`: a strand, and its operations as they follow from those of the chain.
* `Progress.Forced`: inside a strand there is one way on only.
* `Progress.Draws`: a computation adds one strand; `putChain_draws`: putting a chain does, unless
  the chain is an empty edge that is there already.
* `Progress.Woven`: a lowering in progress consists of the given strands. `edges_woven`: it stays so
  to its end, and the strands are those of the edges.
* `FlowGraph.Laid`: what that says of the lowering and its emitted chains, without the progress.
-/

namespace SliceLineage

/-- What stands in a primitive graph for one way in which a rich edge can go: a first transition at
the image of the source, and the others up to the image of the target. -/
structure Strand where
  source : PointId
  edge : Transition
  first : Transition
  rest : Trace

namespace Strand

def trace (st : Strand) : Trace := st.first :: st.rest

def ops (st : Strand) : List Operation := st.trace.map Transition.op

/-- The rich edge that the strand stands for. -/
def key (st : Strand) : PointId × Transition := (st.source, st.edge)

end Strand

/-- The operations that stand for a chain; one without operations becomes an empty edge. -/
def filled : List Operation → List Operation
  | [] => [.noop]
  | ops => ops

/-- The operations of the strand for a chain. No strand may be an edge from a point to itself. -/
def padded (loop : Bool) (chain : List Operation) : List Operation :=
  match loop, filled chain with
  | true, [op] => [op, .noop]
  | _, ops => ops

theorem padded_false (chain : List Operation) : padded false chain = filled chain := rfl

theorem mem_padded {loop : Bool} {chain : List Operation} {op : Operation}
    (h : op ∈ padded loop chain) : op ∈ chain ∨ op = .noop := by
  have hfilled : ∀ o ∈ filled chain, o ∈ chain ∨ o = .noop := by
    intro o ho
    cases chain with
    | nil => exact Or.inr (List.mem_singleton.mp ho)
    | cons _ _ => exact Or.inl ho
  unfold padded at h
  split at h
  · rename_i single hsingle
    rcases List.mem_cons.mp h with rfl | h
    · exact hfilled op (hsingle ▸ List.mem_singleton.mpr rfl)
    · exact Or.inr (List.mem_singleton.mp h)
  · exact hfilled op h

/-- The strand leads from `p` to `q` by the operations of the chain. -/
def Strand.Spells (st : Strand) (p q : PointId) (chain : List Operation) : Prop :=
  st.source = p ∧ st.edge.target = q ∧ st.ops = padded (decide (p = q)) chain

namespace Lowering

namespace Progress

/-- The primitive point is the image of a rich one. -/
def IsImage (s : Progress) (q : PointId) : Prop := ∃ p, s.images.lookup p = some q

/-- Points that are not allocated have no edges, and all points in use are allocated. -/
structure Tidy (s : Progress) : Prop where
  bare : ∀ q : PointId, s.cursor.graph.pointCount ≤ q.index → s.cursor.graph.successors q = []
  current : s.cursor.current.index < s.cursor.graph.pointCount
  images : ∀ q, s.IsImage q → q.index < s.cursor.graph.pointCount
  origins : s.origins.size = s.cursor.graph.pointCount

/-- From `x` on there is one way only, along the trace and through points that are no images. It
ends at `stop`. -/
def Forced (s : Progress) : PointId → Trace → PointId → Prop
  | x, [], stop => x = stop
  | x, u :: rest, stop => s.cursor.graph.successors x = [u] ∧
      x.index < s.cursor.graph.pointCount ∧ ¬ s.IsImage x ∧ s.Forced u.target rest stop

/-- Nothing that was there is gone, the points that `keep` names got no new edges, and none of the
old points became an image. -/
structure Extends (keep : PointId → Prop) (s s' : Progress) : Prop where
  points : s.cursor.graph.pointCount ≤ s'.cursor.graph.pointCount
  origins : ∀ (i : Nat) p, s.origins[i]? = some p → s'.origins[i]? = some p
  images : ∀ p q, s.images.lookup p = some q → s'.images.lookup p = some q
  fresh : ∀ q, s'.IsImage q → s.IsImage q ∨ s.cursor.graph.pointCount ≤ q.index
  successors : ∀ q : PointId, q.index < s.cursor.graph.pointCount → keep q →
    s'.cursor.graph.successors q = s.cursor.graph.successors q

/-- The points inside a strand are no images, so that what is added at images does not touch
them. -/
theorem Forced.extend {keep : PointId → Prop} {stop : PointId} {s s' : Progress}
    (hext : Extends keep s s') (hkeep : ∀ q, ¬ s.IsImage q → keep q) {rest : Trace} :
    ∀ {x : PointId}, s.Forced x rest stop → s'.Forced x rest stop := by
  induction rest with
  | nil => exact fun h => h
  | cons u rest ih =>
      rintro x ⟨hsucc, hlt, himage, hrest⟩
      refine ⟨?_, Nat.lt_of_lt_of_le hlt hext.points, fun h => ?_, ih hrest⟩
      · rw [hext.successors x hlt (hkeep x himage), hsucc]
      · rcases hext.fresh x h with h | h
        · exact himage h
        · omega

theorem Forced.isPath {s : Progress} {stop : PointId} {rest : Trace} :
    ∀ {x : PointId}, s.Forced x rest stop → s.cursor.graph.IsPath x rest stop := by
  induction rest with
  | nil => exact fun h => h
  | cons u rest ih =>
      rintro x ⟨hsucc, -, -, hrest⟩
      exact ⟨hsucc ▸ List.mem_singleton.mpr rfl, ih hrest⟩

/-- From the current point of `s` a new strand leads to `stop`, by new points that belong to
`target`. -/
structure Draws (target stop : PointId) (s s' : Progress) (first : Transition) (rest : Trace) :
    Prop where
  images : s'.images = s.images
  frame : Extends (· ≠ s.cursor.current) s s'
  head : s'.cursor.graph.successors s.cursor.current =
    s.cursor.graph.successors s.cursor.current ++ [first]
  forced : s'.Forced first.target rest stop
  origins : ∀ u ∈ first :: rest, s'.origins[u.target.index]? = some target
  fresh : ∀ u ∈ first :: rest, u.target = stop ∨ s.cursor.graph.pointCount ≤ u.target.index
  nodup : ((first :: rest).map Transition.target).Nodup
  inside : ∀ q : PointId, s.cursor.graph.pointCount ≤ q.index →
    ∀ u ∈ s'.cursor.graph.successors q, u ∈ rest
  owned : ∀ (i : Nat) p, s'.origins[i]? = some p → s.origins[i]? = some p ∨
    p = target ∧ s.cursor.graph.pointCount ≤ i
  bare : ∀ q : PointId, s'.cursor.graph.pointCount ≤ q.index → s'.cursor.graph.successors q = []

/-- The progress after an operation to a new point inside a chain. -/
def advance (s : Progress) (rich : FlowGraph) (target : PointId) (op : Operation) : Progress :=
  ⟨s.cursor.append op (rich.reference? target), s.cells, s.images, s.origins.push target⟩

/-- The progress after an operation to a point that exists. -/
def attach (s : Progress) (stop : PointId) (op : Operation) : Progress :=
  ⟨⟨s.cursor.graph.insert s.cursor.current stop op, stop⟩, s.cells, s.images, s.origins⟩

section

variable {s s' : Progress} {target stop : PointId} {op : Operation} (rich : FlowGraph)

theorem pointCount_advance (s : Progress) (target : PointId) (op : Operation) :
    (s.advance rich target op).cursor.graph.pointCount = s.cursor.graph.pointCount + 1 :=
  Cursor.pointCount_append _ _ _

theorem successors_advance (s : Progress) (target : PointId) (op : Operation) (q : PointId) :
    (s.advance rich target op).cursor.graph.successors q =
      if s.cursor.current = q then
        s.cursor.graph.successors q ++ [⟨⟨s.cursor.graph.pointCount⟩, op⟩]
      else s.cursor.graph.successors q :=
  Cursor.successors_append _ _ _ _

theorem successors_attach (s : Progress) (stop : PointId) (op : Operation) (q : PointId) :
    (s.attach stop op).cursor.graph.successors q =
      if s.cursor.current = q then s.cursor.graph.successors q ++ [⟨stop, op⟩]
      else s.cursor.graph.successors q :=
  FlowGraph.successors_insert _ _ _ _ _

theorem Tidy.current_ne (hs : s.Tidy) {q : PointId} (hq : s.cursor.graph.pointCount ≤ q.index) :
    s.cursor.current ≠ q := by
  have hcurrent := hs.current
  rintro rfl
  omega

theorem Tidy.advance (hs : s.Tidy) (target : PointId) (op : Operation) :
    (s.advance rich target op).Tidy where
  bare q hq := by
    rw [pointCount_advance] at hq
    rw [successors_advance, if_neg (hs.current_ne (by omega)), hs.bare q (by omega)]
  current := by
    rw [pointCount_advance]
    exact Nat.lt_succ_self _
  images q hq := by
    have hlt := hs.images q hq
    rw [pointCount_advance]
    omega
  origins := by
    rw [pointCount_advance, ← hs.origins]
    exact Array.size_push _

/-- A single operation to an image is a strand. -/
theorem Tidy.draws_attach (hs : s.Tidy) (hstop : s.origins[stop.index]? = some target) :
    Draws target stop s (s.attach stop op) ⟨stop, op⟩ [] where
  images := rfl
  frame := by
    refine ⟨Nat.le_refl _, fun _ _ h => h, fun _ _ h => h, fun q hq => Or.inl hq,
      fun q _ hne => ?_⟩
    rw [successors_attach, if_neg (Ne.symm hne)]
  head := by rw [successors_attach, if_pos rfl]
  forced := rfl
  origins u hu := by
    rw [List.mem_singleton.mp hu]
    exact hstop
  fresh u hu := Or.inl (by rw [List.mem_singleton.mp hu])
  nodup := by simp
  inside q hq u hu := by
    rw [successors_attach, if_neg (hs.current_ne hq), hs.bare q hq] at hu
    cases hu
  owned i p hp := Or.inl hp
  bare q hq := by
    have hq : s.cursor.graph.pointCount ≤ q.index := hq
    rw [successors_attach, if_neg (hs.current_ne hq), hs.bare q hq]

section

variable {first : Transition} {rest : Trace}
  (h : Draws target stop (s.advance rich target op) s' first rest)

include h

/-- The new point had no edge, and gets the first one of what follows. -/
theorem Draws.successors_new (hs : s.Tidy) :
    s'.cursor.graph.successors ⟨s.cursor.graph.pointCount⟩ = [first] := by
  have hhead := h.head
  rw [successors_advance, if_neg (by exact hs.current_ne (Nat.le_refl _))] at hhead
  rw [show s.cursor.graph.successors (s.advance rich target op).cursor.current = [] from
    hs.bare _ (Nat.le_refl _)] at hhead
  exact hhead

theorem Draws.successors_old {q : PointId} (hq : q.index < s.cursor.graph.pointCount) :
    s'.cursor.graph.successors q = (s.advance rich target op).cursor.graph.successors q := by
  refine h.frame.successors q ?_ ?_
  · rw [pointCount_advance]
    omega
  · rintro rfl
    exact Nat.lt_irrefl _ hq

theorem Draws.extends_old : Extends (· ≠ s.cursor.current) s s' where
  points := by
    have hpoints := h.frame.points
    rw [pointCount_advance] at hpoints
    omega
  origins i p hp := h.frame.origins i p (getElem?_push_of_eq_some target hp)
  images p q hq := h.frame.images p q hq
  fresh q hq := by
    rcases h.frame.fresh q hq with hq | hq
    · exact Or.inl hq
    · rw [pointCount_advance] at hq
      exact Or.inr (by omega)
  successors q hq hcurrent := by
    rw [h.successors_old rich hq, successors_advance, if_neg (Ne.symm hcurrent)]

theorem Draws.not_isImage_new (hs : s.Tidy) : ¬ s'.IsImage ⟨s.cursor.graph.pointCount⟩ := by
  intro himage
  rcases h.frame.fresh _ himage with himage | himage
  · exact Nat.lt_irrefl _ (hs.images _ himage)
  · rw [pointCount_advance] at himage
    exact Nat.lt_irrefl _ himage

/-- A strand that begins with an operation to a new point. -/
theorem Draws.cons (hs : s.Tidy) (hstop : stop.index < s.cursor.graph.pointCount) :
    Draws target stop s s' ⟨⟨s.cursor.graph.pointCount⟩, op⟩ (first :: rest) where
  images := h.images
  frame := h.extends_old rich
  head := by rw [h.successors_old rich hs.current, successors_advance, if_pos rfl]
  forced := by
    have hpoints := h.frame.points
    rw [pointCount_advance] at hpoints
    exact ⟨h.successors_new rich hs, hpoints, h.not_isImage_new rich hs, h.forced⟩
  origins u hu := by
    rcases List.mem_cons.mp hu with rfl | hu
    · refine h.frame.origins _ _ ?_
      show (s.origins.push target)[s.cursor.graph.pointCount]? = some target
      rw [← hs.origins]
      exact Array.getElem?_push_size
    · exact h.origins u hu
  fresh u hu := by
    rcases List.mem_cons.mp hu with rfl | hu
    · exact Or.inr (Nat.le_refl _)
    · rcases h.fresh u hu with hu | hu
      · exact Or.inl hu
      · rw [pointCount_advance] at hu
        exact Or.inr (by omega)
  nodup := by
    refine List.nodup_cons.mpr ⟨fun hmem => ?_, h.nodup⟩
    obtain ⟨u, hu, htarget⟩ := List.mem_map.mp hmem
    rcases h.fresh u hu with hu | hu
    · rw [← hu, htarget] at hstop
      exact Nat.lt_irrefl _ hstop
    · rw [htarget, pointCount_advance] at hu
      exact Nat.lt_irrefl _ hu
  inside q hq u hu := by
    by_cases hlast : q.index = s.cursor.graph.pointCount
    · rw [show q = ⟨s.cursor.graph.pointCount⟩ from by rw [← hlast],
        h.successors_new rich hs] at hu
      rw [List.mem_singleton.mp hu]
      exact List.mem_cons_self
    · refine List.mem_cons_of_mem _ (h.inside q ?_ u hu)
      rw [pointCount_advance]
      omega
  owned i p hp := by
    rcases h.owned i p hp with hp | ⟨rfl, hi⟩
    · have hp : (s.origins.push target)[i]? = some p := hp
      rw [Array.getElem?_push] at hp
      split at hp
      · rename_i hi
        exact Or.inr ⟨(Option.some.inj hp).symm, Nat.le_of_eq (hi.trans hs.origins).symm⟩
      · exact Or.inl hp
    · rw [pointCount_advance] at hi
      exact Or.inr ⟨rfl, by omega⟩
  bare := h.bare

end

end

end Progress

open Progress (Draws)

variable {rules : LeafRules} {registry : Registry} (rich : FlowGraph)

theorem attach_of_run_join {s s' : Progress} {stop : PointId}
    (h : (join stop).run s = .ok ((), s')) :
    s' = s.attach stop .noop ∨
      ⟨stop, .noop⟩ ∈ s.cursor.graph.successors s.cursor.current ∧
        s' = { s with cursor := s.cursor.moveTo stop } := by
  rcases hc : s.cursor.join stop with ⟨answer, c⟩
  rw [run_join hc] at h
  cases answer with
  | error e => cases h
  | ok _ =>
      cases h
      obtain ⟨hcurrent, ⟨hgraph, hmem⟩ | ⟨hgraph, -⟩⟩ := Cursor.join_cases hc
      · refine Or.inr ⟨hmem, ?_⟩
        rw [Cursor.moveTo, ← hgraph, ← hcurrent]
      · refine Or.inl ?_
        rw [Progress.attach, ← hgraph, ← hcurrent]

/-- From a new point nothing leads to the image yet. -/
theorem inner_join_draws {s s' : Progress} {target stop : PointId} {op : Operation}
    (hs : s.Tidy) (hstop : s.origins[stop.index]? = some target)
    (hrun : (do inner rich target op; join stop : Lower Unit).run s = .ok ((), s')) :
    Draws target stop s s' ⟨⟨s.cursor.graph.pointCount⟩, op⟩ [⟨stop, .noop⟩] := by
  have hnew := hs.advance rich target op
  have hjoin : (join stop).run (s.advance rich target op) = .ok ((), s') := hrun
  obtain ⟨hlt, -⟩ := Array.getElem?_eq_some_iff.mp hstop
  refine Draws.cons rich ?_ hs (hs.origins ▸ hlt)
  rcases attach_of_run_join hjoin with rfl | ⟨hmem, -⟩
  · exact hnew.draws_attach (getElem?_push_of_eq_some target hstop)
  · rw [Progress.successors_advance, if_neg (hs.current_ne (Nat.le_refl _)),
      hs.bare _ (Nat.le_refl _)] at hmem
    cases hmem

/-- **Putting a chain draws one strand,** unless the chain is empty and the edge for it is there. -/
theorem putChain_draws {target stop : PointId} {chain : List Operation} :
    ∀ {s s' : Progress}, s.Tidy → s.origins[stop.index]? = some target →
      (putChain rich target stop chain).run s = .ok ((), s') →
      (∃ first rest, Draws target stop s s' first rest ∧
        (first :: rest).map Transition.op = padded (decide (s.cursor.current = stop)) chain) ∨
      chain = [] ∧ s.cursor.current ≠ stop ∧
        ⟨stop, .noop⟩ ∈ s.cursor.graph.successors s.cursor.current ∧
        s' = { s with cursor := s.cursor.moveTo stop } := by
  induction chain with
  | nil =>
      intro s s' hs hstop hrun
      by_cases hat : s.cursor.current = stop
      · simp only [putChain, run_atPoint_bind, hat] at hrun
        exact Or.inl ⟨_, _, inner_join_draws rich hs hstop hrun, by simp [padded, filled, hat]⟩
      · simp only [putChain, run_atPoint_bind, hat] at hrun
        rcases attach_of_run_join hrun with rfl | ⟨hmem, rfl⟩
        · exact Or.inl ⟨_, _, hs.draws_attach hstop, by simp [padded, filled, hat]⟩
        · exact Or.inr ⟨rfl, hat, hmem, rfl⟩
  | cons op rest ih =>
      intro s s' hs hstop hrun
      refine Or.inl ?_
      cases rest with
      | nil =>
          by_cases hat : s.cursor.current = stop
          · simp only [putChain, run_atPoint_bind, hat] at hrun
            exact ⟨_, _, inner_join_draws rich hs hstop hrun, by simp [padded, filled, hat]⟩
          · simp only [putChain, run_atPoint_bind, hat] at hrun
            cases (run_link (Ne.symm hat) op).symm.trans hrun
            exact ⟨_, _, hs.draws_attach hstop, by simp [padded, filled, hat]⟩
      | cons next rest =>
          obtain ⟨hlt, -⟩ := Array.getElem?_eq_some_iff.mp hstop
          rw [hs.origins] at hlt
          have hnew : (s.advance rich target op).cursor.current ≠ stop := by
            rintro rfl
            exact Nat.lt_irrefl _ hlt
          rcases ih (hs.advance rich target op) (getElem?_push_of_eq_some target hstop) hrun with
            ⟨first, more, hdraws, hops⟩ | ⟨hnil, -⟩
          · refine ⟨_, _, hdraws.cons rich hs hlt, ?_⟩
            rw [decide_eq_false hnew] at hops
            rw [List.map_cons, hops]
            cases decide (s.cursor.current = stop) <;> rfl
          · cases hnil

namespace Progress

/-- The strand is in the graph, between the images of the two ends of its edge. -/
structure Holds (s : Progress) (st : Strand) : Prop where
  source : ∃ start, s.images.lookup st.source = some start
  forced : ∃ stop, s.images.lookup st.edge.target = some stop ∧
    s.Forced st.first.target st.rest stop
  origins : ∀ u ∈ st.trace, s.origins[u.target.index]? = some st.edge.target
  nodup : (st.trace.map Transition.target).Nodup

/-- The graph consists of these strands: an image has the first edges of those that begin there, in
their order. -/
structure Woven (s : Progress) (drawn : List Strand) : Prop where
  holds : ∀ st ∈ drawn, s.Holds st
  heads : ∀ p start, s.images.lookup p = some start → s.cursor.graph.successors start =
    (drawn.filter (·.source = p)).map Strand.first
  traced : ∀ q, ∀ u ∈ s.cursor.graph.successors q, ∃ st ∈ drawn, u ∈ st.trace
  earliest : ∀ (i : Nat) p, s.origins[i]? = some p →
    ∃ q, s.images.lookup p = some q ∧ q.index ≤ i
  bare : ∀ q : PointId, s.cursor.graph.pointCount ≤ q.index → s.cursor.graph.successors q = []

variable {s s' : Progress} {drawn : List Strand}

theorem Holds.extend {keep : PointId → Prop} (hext : Extends keep s s')
    (hkeep : ∀ q, ¬ s.IsImage q → keep q) {st : Strand} (h : s.Holds st) : s'.Holds st where
  source := h.source.imp fun _ hstart => hext.images _ _ hstart
  forced := by
    obtain ⟨stop, hstop, hforced⟩ := h.forced
    exact ⟨stop, hext.images _ _ hstop, hforced.extend hext hkeep⟩
  origins u hu := hext.origins _ _ (h.origins u hu)
  nodup := h.nodup

theorem Woven.congr (h : s.Woven drawn) (hgraph : s'.cursor.graph = s.cursor.graph)
    (himages : s'.images = s.images) (horigins : s'.origins = s.origins) : s'.Woven drawn where
  holds st hst := by
    have hext : Extends (fun _ => True) s s' := by
      refine ⟨Nat.le_of_eq (by rw [hgraph]), ?_, ?_, fun q hq => Or.inl ?_,
        fun q _ _ => by rw [hgraph]⟩
      · rw [horigins]
        exact fun _ _ hp => hp
      · rw [himages]
        exact fun _ _ hq => hq
      · rwa [IsImage, himages] at hq
    exact (h.holds st hst).extend hext fun _ _ => trivial
  heads p start hp := by
    rw [himages] at hp
    rw [hgraph]
    exact h.heads p start hp
  traced q u hu := by
    rw [hgraph] at hu
    exact h.traced q u hu
  earliest i p hp := by
    rw [horigins] at hp
    rw [himages]
    exact h.earliest i p hp
  bare q hq := by
    rw [hgraph] at hq ⊢
    exact h.bare q hq

theorem Sound.tidy (hs : s.Sound rules) (hw : s.Woven drawn)
    (hcurrent : s.IsImage s.cursor.current) : s.Tidy := by
  have himages : ∀ q, s.IsImage q → q.index < s.cursor.graph.pointCount := by
    rintro q ⟨p, hq⟩
    obtain ⟨hlt, -⟩ := Array.getElem?_eq_some_iff.mp (hs.images p q hq)
    exact hs.origins ▸ hlt
  exact ⟨hw.bare, himages _ hcurrent, himages, hs.origins⟩

theorem Sound.eq_of_image (hs : s.Sound rules) {p p' q : PointId}
    (h : s.images.lookup p = some q) (h' : s.images.lookup p' = some q) : p = p' :=
  Option.some.inj ((hs.images p q h).symm.trans (hs.images p' q h'))

/-- A new strand at the image of `p` is the last one there. -/
theorem Woven.draw (hs : s.Sound rules) (hw : s.Woven drawn) {p stop : PointId} {t : Transition}
    (hp : s.images.lookup p = some s.cursor.current)
    (hstop : s.images.lookup t.target = some stop) {first : Transition} {rest : Trace}
    (hd : Draws t.target stop s s' first rest) : s'.Woven (drawn ++ [⟨p, t, first, rest⟩]) where
  holds st hst := by
    rcases List.mem_append.mp hst with hst | hst
    · refine (hw.holds st hst).extend hd.frame fun q hq => ?_
      rintro rfl
      exact hq ⟨p, hp⟩
    · rw [List.mem_singleton.mp hst]
      exact ⟨⟨_, hd.frame.images _ _ hp⟩, ⟨stop, hd.frame.images _ _ hstop, hd.forced⟩,
        hd.origins, hd.nodup⟩
  heads o start ho := by
    rw [hd.images] at ho
    rw [List.filter_append, List.map_append]
    by_cases hop : o = p
    · subst hop
      obtain rfl : start = s.cursor.current := Option.some.inj (ho.symm.trans hp)
      rw [hd.head, hw.heads o _ ho]
      simp
    · have hne : start ≠ s.cursor.current := by
        rintro rfl
        exact hop (hs.eq_of_image ho hp)
      have hlt : start.index < s.cursor.graph.pointCount :=
        (hs.tidy hw ⟨p, hp⟩).images start ⟨o, ho⟩
      rw [hd.frame.successors start hlt hne, hw.heads o start ho]
      simp [Ne.symm hop]
  traced q u hu := by
    by_cases hlt : q.index < s.cursor.graph.pointCount
    · by_cases hq : q = s.cursor.current
      · rw [hq, hd.head] at hu
        rcases List.mem_append.mp hu with hu | hu
        · obtain ⟨st, hst, hmem⟩ := hw.traced _ u hu
          exact ⟨st, List.mem_append_left _ hst, hmem⟩
        · rw [List.mem_singleton.mp hu]
          exact ⟨_, List.mem_append_right _ (List.mem_singleton.mpr rfl), List.mem_cons_self⟩
      · rw [hd.frame.successors q hlt hq] at hu
        obtain ⟨st, hst, hmem⟩ := hw.traced q u hu
        exact ⟨st, List.mem_append_left _ hst, hmem⟩
    · exact ⟨_, List.mem_append_right _ (List.mem_singleton.mpr rfl),
        List.mem_cons_of_mem _ (hd.inside q (Nat.le_of_not_lt hlt) u hu)⟩
  earliest i o ho := by
    rw [hd.images]
    rcases hd.owned i o ho with ho | ⟨rfl, hi⟩
    · exact hw.earliest i o ho
    · have hlt := (hs.tidy hw ⟨p, hp⟩).images stop ⟨_, hstop⟩
      exact ⟨stop, hstop, by omega⟩
  bare := hd.bare

/-- An empty edge between two images is a strand of its own. -/
theorem Woven.exists_noop (hs : s.Sound rules) (hw : s.Woven drawn) {p q start stop : PointId}
    (hp : s.images.lookup p = some start) (hq : s.images.lookup q = some stop)
    (hmem : ⟨stop, .noop⟩ ∈ s.cursor.graph.successors start) :
    ∃ st ∈ drawn, st.source = p ∧ st.edge.target = q ∧ st.ops = [.noop] := by
  rw [hw.heads p start hp] at hmem
  obtain ⟨st, hst, hfirst⟩ := List.mem_map.mp hmem
  obtain ⟨hst, hsource⟩ := List.mem_filter.mp hst
  obtain ⟨stop', hstop', hforced⟩ := (hw.holds st hst).forced
  rw [hfirst] at hforced
  cases hrest : st.rest with
  | nil =>
      rw [hrest] at hforced
      obtain rfl : stop = stop' := hforced
      exact ⟨st, hst, by simpa using hsource, hs.eq_of_image hstop' hq,
        by simp [Strand.ops, Strand.trace, hfirst, hrest]⟩
  | cons u rest =>
      rw [hrest] at hforced
      exact absurd ⟨q, hq⟩ hforced.2.2.1

end Progress

open Progress (Woven Grows Sound)

/-- The progress after a new image for `p`. -/
def Progress.expose (s : Progress) (p : PointId) : Progress :=
  ⟨(s.cursor.reserve (rich.reference? p)).2, s.cells,
    s.images ++ [(p, ⟨s.cursor.graph.pointCount⟩)], s.origins.push p⟩

theorem run_image {s s' : Progress} {p q : PointId} (h : (image rich p).run s = .ok (q, s')) :
    s' = s ∨ s.images.lookup p = none ∧ s' = s.expose rich p := by
  simp only [image, StateT.run_modifyGet] at h
  cases hp : s.images.lookup p with
  | some o =>
      rw [hp] at h
      cases h
      exact Or.inl rfl
  | none =>
      rw [hp] at h
      cases h
      exact Or.inr ⟨rfl, rfl⟩

theorem Progress.extends_expose (s : Progress) (p : PointId) :
    Progress.Extends (fun _ => True) s (s.expose rich p) where
  points := (FlowGraph.grows_allocate _ _).points
  origins _ _ h := getElem?_push_of_eq_some p h
  images o q ho := by
    refine (lookup_append_singleton _ _ _ _).trans ?_
    rw [ho, Option.some_or]
  fresh := by
    rintro q ⟨o, ho⟩
    rcases lookup_append_singleton_cases ho with ho | ⟨-, rfl⟩
    · exact Or.inl ⟨o, ho⟩
    · exact Or.inr (Nat.le_refl _)
  successors q _ _ := FlowGraph.successors_allocate _ _ q

/-- The image of a point that is new has no edges yet. -/
theorem Progress.Woven.expose {s : Progress} {drawn : List Strand} {p : PointId}
    (hs : s.Sound rules) (hw : s.Woven drawn) (hp : s.images.lookup p = none) :
    (s.expose rich p).Woven drawn where
  holds st hst := (hw.holds st hst).extend (s.extends_expose rich p) fun _ _ => trivial
  heads o start ho := by
    refine (FlowGraph.successors_allocate _ _ start).trans ?_
    rcases lookup_append_singleton_cases ho with ho | ⟨rfl, rfl⟩
    · exact hw.heads o start ho
    · rw [hw.bare _ (Nat.le_refl _), eq_comm, List.map_eq_nil_iff, List.filter_eq_nil_iff]
      intro st hst hsource
      obtain ⟨start, hstart⟩ := (hw.holds st hst).source
      rw [of_decide_eq_true hsource, hp] at hstart
      cases hstart
  traced q u hu := hw.traced q u (FlowGraph.successors_allocate _ _ q ▸ hu)
  earliest i o ho := by
    have ho : (s.origins.push p)[i]? = some o := ho
    rw [Array.getElem?_push] at ho
    split at ho
    · rename_i hi
      obtain rfl : p = o := Option.some.inj ho
      refine ⟨⟨s.cursor.graph.pointCount⟩, (lookup_append_singleton _ _ _ _).trans ?_, ?_⟩
      · rw [hp, if_pos rfl, Option.none_or]
      · exact Nat.le_of_eq (hi.trans hs.origins).symm
    · obtain ⟨q, hq, hle⟩ := hw.earliest i o ho
      exact ⟨q, (s.extends_expose rich p).images o q hq, hle⟩
  bare q hq := by
    have hle := (s.extends_expose rich p).points
    exact (FlowGraph.successors_allocate _ _ q).trans (hw.bare q (by omega))

theorem image_woven {s s' : Progress} {drawn : List Strand} {p q : PointId} (hs : s.Sound rules)
    (hw : s.Woven drawn) (hrun : (image rich p).run s = .ok (q, s')) : s'.Woven drawn := by
  rcases run_image rich hrun with rfl | ⟨hp, rfl⟩
  · exact hw
  · exact hw.expose rich hs hp

theorem chains_woven {s s' : Progress} {drawn : List Strand} {op : Operation}
    {result : List (List Operation)} (hw : s.Woven drawn)
    (hrun : (chains registry rules op).run s = .ok (result, s')) : s'.Woven drawn := by
  have hbind : (((CellM.chains registry rules op).run s.cells >>= fun r => Except.ok (r, s)) >>=
      fun r => Except.ok (r.1.1, { s with cells := r.1.2 })) = Except.ok (result, s') := hrun
  cases hcells : (CellM.chains registry rules op).run s.cells with
  | error e =>
      rw [hcells] at hbind
      cases hbind
  | ok r =>
      rw [hcells] at hbind
      cases hbind
      exact hw.congr rfl rfl rfl

/-- Two edges have another source or another target. -/
def Apart (e e' : PointId × Transition) : Prop := ¬ (e.1 = e'.1 ∧ e.2.target = e'.2.target)

/-- The strands `new` were added to `drawn` for chains of an edge. A chain gets no strand of its own
only if there is one like it. -/
structure Weaves (e : PointId × Transition) (chains : List (List Operation))
    (drawn new : List Strand) : Prop where
  only : ∀ st ∈ new, st.key = e ∧ ∃ chain ∈ chains, st.Spells e.1 e.2.target chain
  all : ∀ chain ∈ chains, ∃ st ∈ drawn ++ new, st.Spells e.1 e.2.target chain
  single : chains.length = 1 → (∀ st ∈ drawn, Apart st.key e) → new.map Strand.key = [e]

theorem Weaves.cons {e : PointId × Transition} {chain : List Operation}
    {rest : List (List Operation)} {drawn new more : List Strand} (h : Weaves e [chain] drawn new)
    (h' : Weaves e rest (drawn ++ new) more) : Weaves e (chain :: rest) drawn (new ++ more) where
  only st hst := by
    rcases List.mem_append.mp hst with hst | hst
    · obtain ⟨hkey, c, hc, hspells⟩ := h.only st hst
      rw [List.mem_singleton.mp hc] at hspells
      exact ⟨hkey, chain, List.mem_cons_self, hspells⟩
    · obtain ⟨hkey, c, hc, hspells⟩ := h'.only st hst
      exact ⟨hkey, c, List.mem_cons_of_mem _ hc, hspells⟩
  all c hc := by
    rw [← List.append_assoc]
    rcases List.mem_cons.mp hc with rfl | hc
    · obtain ⟨st, hst, hspells⟩ := h.all c (List.mem_singleton.mpr rfl)
      exact ⟨st, List.mem_append_left _ hst, hspells⟩
    · exact h'.all c hc
  single hlength hapart := by
    have hrest : rest = [] := List.eq_nil_of_length_eq_zero (Nat.succ.inj hlength)
    have hmore : more = [] := by
      refine List.eq_nil_iff_forall_not_mem.mpr fun st hst => ?_
      obtain ⟨-, c, hc, -⟩ := h'.only st hst
      rw [hrest] at hc
      cases hc
    rw [hmore, List.append_nil]
    exact h.single rfl hapart

theorem putChain_woven {s s' : Progress} {drawn : List Strand} {p stop : PointId} {t : Transition}
    {chain : List Operation} (hs : s.Sound rules) (hw : s.Woven drawn)
    (hp : s.images.lookup p = some s.cursor.current)
    (hstop : s.images.lookup t.target = some stop)
    (hrun : (putChain rich t.target stop chain).run s = .ok ((), s')) :
    ∃ new, s'.Woven (drawn ++ new) ∧ Weaves (p, t) [chain] drawn new := by
  have hloop : decide (s.cursor.current = stop) = decide (p = t.target) := by
    refine decide_eq_decide.mpr ⟨?_, ?_⟩
    · rintro rfl
      exact hs.eq_of_image hp hstop
    · rintro rfl
      exact Option.some.inj (hp.symm.trans hstop)
  rcases putChain_draws rich (hs.tidy hw ⟨p, hp⟩) (hs.images _ _ hstop) hrun with
    ⟨first, rest, hdraws, hops⟩ | ⟨rfl, hne, hmem, rfl⟩
  · have hspells : Strand.Spells ⟨p, t, first, rest⟩ p t.target chain := by
      refine ⟨rfl, rfl, ?_⟩
      rw [← hloop]
      exact hops
    refine ⟨[⟨p, t, first, rest⟩], hw.draw hs hp hstop hdraws, ?_, ?_, fun _ _ => rfl⟩
    · intro st hst
      rw [List.mem_singleton.mp hst]
      exact ⟨rfl, chain, List.mem_singleton.mpr rfl, hspells⟩
    · intro c hc
      rw [List.mem_singleton.mp hc]
      exact ⟨_, List.mem_append_right _ (List.mem_singleton.mpr rfl), hspells⟩
  · obtain ⟨st, hst, hsource, htarget, hops⟩ := hw.exists_noop hs hp hstop hmem
    refine ⟨[], ?_, by simp, fun c hc => ?_, fun _ hapart => ?_⟩
    · rw [List.append_nil]
      exact hw.congr rfl rfl rfl
    · rw [List.mem_singleton.mp hc]
      refine ⟨st, List.mem_append_left _ hst, hsource, htarget, ?_⟩
      rw [hops, ← hloop, decide_eq_false hne]
      rfl
    · exact absurd ⟨hsource, htarget⟩ (hapart st hst)

theorem putChains_woven {p start stop : PointId} {t : Transition} {chains : List (List Operation)} :
    ∀ {s s' : Progress} {drawn : List Strand}, s.Sound rules → s.Woven drawn →
      s.images.lookup p = some start → s.images.lookup t.target = some stop →
      (∀ chain ∈ chains, ∀ op ∈ chain, op.isPrimitive = true) →
      (putChains rich start stop t.target chains).run s = .ok ((), s') →
      ∃ new, s'.Woven (drawn ++ new) ∧ Weaves (p, t) chains drawn new := by
  induction chains with
  | nil =>
      intro s s' drawn _ hw _ _ _ hrun
      cases hrun
      exact ⟨[], by simpa using hw, by simp, by simp, by simp⟩
  | cons chain rest ih =>
      intro s s' drawn hs hw hp hstop hops hrun
      obtain ⟨s₁, hmove, hs₁, hg₁, -, hcurrent⟩ := moveTo_spec hs start
      have hw₁ : s₁.Woven drawn := by
        cases hmove
        exact hw.congr rfl rfl rfl
      have hp₁ := hg₁.images _ _ hp
      have hstop₁ := hg₁.images _ _ hstop
      obtain ⟨k, s₂, hput, -⟩ := putChain_spec rich hs₁ (hs₁.images _ _ hstop₁)
        (hops chain List.mem_cons_self)
      rw [putChains, run_bind_of_ok hmove, run_bind_of_ok hput.runs] at hrun
      obtain ⟨new, hw₂, hnew⟩ := putChain_woven rich hs₁ hw₁ (hcurrent ▸ hp₁) hstop₁ hput.runs
      obtain ⟨more, hw', hmore⟩ := ih hput.sound hw₂ (hput.grows.images _ _ hp₁)
        (hput.grows.images _ _ hstop₁) (fun c hc => hops c (List.mem_cons_of_mem _ hc)) hrun
      exact ⟨new ++ more, List.append_assoc drawn new more ▸ hw', hnew.cons hmore⟩

/-- The strands `new` were added to `drawn` for edges. -/
structure Progress.Weaves (registry : Registry) (rules : LeafRules) (s : Progress)
    (es : List (PointId × Transition)) (drawn new : List Strand) : Prop where
  only : ∀ st ∈ new, st.key ∈ es ∧ ∃ outcome ∈ registry.outcomes st.edge.op,
    st.Spells st.source st.edge.target (rules.chain s.cells st.edge.op outcome)
  all : ∀ e ∈ es, ∀ outcome ∈ registry.outcomes e.2.op,
    ∃ st ∈ drawn ++ new, st.Spells e.1 e.2.target (rules.chain s.cells e.2.op outcome)
  single : (∀ e ∈ es, (registry.outcomes e.2.op).length = 1) →
    (drawn.map Strand.key ++ es).Pairwise Apart → new.map Strand.key = es

theorem edge_woven {e : PointId × Transition} {s s' : Progress} {drawn : List Strand}
    (hs : s.Sound rules) (hw : s.Woven drawn) (hop : e.2.op.isMove = false)
    (hc : rules.Covers registry e.2.op)
    (hrun : (edge registry rules rich e).run s = .ok ((), s')) :
    ∃ new, s'.Woven (drawn ++ new) ∧
      Weaves e ((registry.outcomes e.2.op).map (rules.chain s'.cells e.2.op)) drawn new := by
  obtain ⟨start, s₁, hrun₁, hs₁, hg₁, hstart⟩ := image_spec rich hs e.1
  obtain ⟨stop, s₂, hrun₂, hs₂, hg₂, hstop⟩ := image_spec rich hs₁ e.2.target
  obtain ⟨s₃, hrun₃, hs₃, hg₃, -⟩ := chains_spec hs₂ hop hc
  have hw₃ : s₃.Woven drawn :=
    chains_woven (image_woven rich hs₁ (image_woven rich hs hw hrun₁) hrun₂) hrun₃
  have hprimitive : ∀ chain ∈ (registry.outcomes e.2.op).map (rules.chain s₃.cells e.2.op),
      ∀ op ∈ chain, op.isPrimitive = true := LeafRules.isPrimitive_of_mem_chains
  have hstart₃ := hg₃.images _ _ (hg₂.images _ _ hstart)
  have hstop₃ := hg₃.images _ _ hstop
  obtain ⟨s₄, hrun₄, -, -, hcells, -⟩ :=
    putChains_spec rich start hs₃ (hs₃.images _ _ hstop₃) hprimitive
  rw [edge, run_bind_of_ok hrun₁, run_bind_of_ok hrun₂, run_bind_of_ok hrun₃] at hrun
  cases hrun₄.symm.trans hrun
  rw [hcells]
  exact putChains_woven rich hs₃ hw₃ hstart₃ hstop₃ hprimitive hrun

/-- The strands of an edge stand for its outcomes also when more cells are numbered. -/
theorem Weaves.grow {e : PointId × Transition} {s s' : Progress} {drawn new : List Strand}
    (h : Weaves e ((registry.outcomes e.2.op).map (rules.chain s.cells e.2.op)) drawn new)
    (hop : e.2.op.isMove = false) (hc : rules.Covers registry e.2.op)
    (hs : s.Sound rules) (hs' : s'.Sound rules) (hcarries : s.Carries registry rules e.1 e.2)
    (hg : s.Grows s') :
    Weaves e ((registry.outcomes e.2.op).map (rules.chain s'.cells e.2.op)) drawn new := by
  rwa [(CellM.yields_chains hop hc.fits hc.returns).stable s.cells s'.cells hs.cells
    hs'.cells hg.cells hcarries.knows]

theorem Progress.Weaves.cons {e : PointId × Transition} {rest : List (PointId × Transition)}
    {s : Progress} {drawn new more : List Strand}
    (h : Lowering.Weaves e ((registry.outcomes e.2.op).map (rules.chain s.cells e.2.op)) drawn new)
    (h' : s.Weaves registry rules rest (drawn ++ new) more) :
    s.Weaves registry rules (e :: rest) drawn (new ++ more) where
  only st hst := by
    rcases List.mem_append.mp hst with hst | hst
    · obtain ⟨rfl, chain, hchain, hspells⟩ := h.only st hst
      obtain ⟨outcome, ho, rfl⟩ := List.mem_map.mp hchain
      exact ⟨List.mem_cons_self, outcome, ho, hspells⟩
    · obtain ⟨hkey, houtcome⟩ := h'.only st hst
      exact ⟨List.mem_cons_of_mem _ hkey, houtcome⟩
  all o ho outcome houtcome := by
    rw [← List.append_assoc]
    rcases List.mem_cons.mp ho with rfl | ho
    · obtain ⟨st, hst, hspells⟩ := h.all _ (List.mem_map_of_mem houtcome)
      exact ⟨st, List.mem_append_left _ hst, hspells⟩
    · exact h'.all o ho outcome houtcome
  single hone hapart := by
    have hkey : new.map Strand.key = [e] := by
      refine h.single (by simpa using hone e List.mem_cons_self) fun st hst => ?_
      exact (List.pairwise_append.mp hapart).2.2 _ (List.mem_map_of_mem hst) e List.mem_cons_self
    have hkeys : more.map Strand.key = rest := by
      refine h'.single (fun e he => hone e (List.mem_cons_of_mem _ he)) ?_
      rw [List.map_append, hkey, List.append_assoc]
      exact hapart
    rw [List.map_append, hkey, hkeys]
    rfl

/-- **Lowering edges keeps the graph woven.** The strands that it adds are those of the edges. -/
theorem edges_woven {es : List (PointId × Transition)} :
    ∀ {s s' : Progress} {drawn : List Strand}, s.Sound rules → s.Woven drawn →
      (∀ e ∈ es, e.2.op.isMove = false ∧ rules.Covers registry e.2.op) →
      (edges registry rules rich es).run s = .ok ((), s') →
      ∃ new, s'.Woven (drawn ++ new) ∧ s'.Weaves registry rules es drawn new := by
  induction es with
  | nil =>
      intro s s' drawn _ hw _ hrun
      cases hrun
      exact ⟨[], by simpa using hw, by simp, by simp, fun _ _ => rfl⟩
  | cons e rest ih =>
      intro s s' drawn hs hw hes hrun
      obtain ⟨hop, hc⟩ := hes e List.mem_cons_self
      obtain ⟨s₁, hrun₁, hs₁, -, hcarries⟩ := edge_spec rich e.1 hs hop hc
      have hrest := fun e he => hes e (List.mem_cons_of_mem _ he)
      rw [edges, run_bind_of_ok hrun₁] at hrun
      obtain ⟨new, hw₁, hnew⟩ := edge_woven rich hs hw hop hc hrun₁
      obtain ⟨more, hw', hmore⟩ := ih hs₁ hw₁ hrest hrun
      obtain ⟨hs', hg⟩ : s'.Sound rules ∧ s₁.Grows s' := by
        rcases edges_spec rich hs₁ fun e he => (hrest e he).2 with
          ⟨s₂, hrun₂, hs₂, hg, -⟩ | ⟨e, he, hmove, -⟩
        · cases hrun₂.symm.trans hrun
          exact ⟨hs₂, hg⟩
        · rw [(hrest e he).1] at hmove
          cases hmove
      exact ⟨new ++ more, List.append_assoc drawn new more ▸ hw',
        .cons (hnew.grow hop hc hs₁ hs' hcarries hg) hmore⟩

/-- At the start there are no strands. -/
theorem woven_start (rich : FlowGraph) : (Progress.start rich).Woven [] := by
  have hnone : ∀ q, (Progress.start rich).cursor.graph.successors q = [] :=
    Cursor.successors_start _
  refine ⟨by simp, fun p start _ => hnone start, fun q u hu => ?_, fun i p hp => ?_,
    fun q _ => hnone q⟩
  · rw [hnone q] at hu
    cases hu
  · have hp : #[rich.root][i]? = some p := hp
    obtain ⟨hlt, rfl⟩ := Array.getElem?_eq_some_iff.mp hp
    obtain rfl : i = 0 := Nat.lt_one_iff.mp hlt
    refine ⟨_, FlowGraph.lookup_start rich, ?_⟩
    show (Cursor.start (rich.reference? rich.root)).graph.root.index ≤ 0
    unfold Cursor.start
    split <;> exact Nat.le_refl _

end Lowering

namespace FlowGraph

variable {registry : Registry} {depth : Nat} {rich : FlowGraph}

/-- A lowering that came to its end, and the strands that its graph consists of. -/
structure Spun (registry : Registry) (depth : Nat) (rich : FlowGraph) (s : Lowering.Progress)
    (drawn : List Strand) : Prop where
  lowered : Lowered registry depth rich s
  woven : s.Woven drawn
  weaves : s.Weaves registry (leafRules depth (rich.assignments registry)) rich.reachableEdges
    [] drawn

/-- **The primitive graph consists of the strands of the reachable edges.** -/
theorem exists_spun {l : Lowering} (h : rich.lower registry depth = .ok l) :
    ∃ s drawn, Spun registry depth rich s drawn ∧ l = ⟨s.cursor.graph, s.origins, s.cells,
      leafRules depth (rich.assignments registry)⟩ := by
  rcases rich.lower_cases registry depth with ⟨s, hl, hs⟩ | ⟨p, t, -, -, -, herror⟩
  · have hes : ∀ e ∈ rich.reachableEdges, e.2.op.isMove = false ∧
        (leafRules depth (rich.assignments registry)).Covers registry e.2.op := by
      intro e he
      obtain ⟨hp, ht⟩ := mem_reachableEdges_iff.mp he
      exact ⟨(hs.carries _ hp _ ht).1, covers_of_mem_successors registry depth ht⟩
    obtain ⟨drawn, hw, hweaves⟩ := Lowering.edges_woven rich
      (Lowering.Progress.sound_start _ rich) (Lowering.woven_start rich) hes hs.runs
    exact ⟨s, drawn, ⟨hs, hw, hweaves⟩, Except.ok.inj (h.symm.trans hl)⟩
  · rw [h] at herror
    cases herror

/-- A strand leads from the image of the source of its edge to that of the target. -/
theorem Spun.isPath {s : Lowering.Progress} {drawn : List Strand}
    (h : Spun registry depth rich s drawn) {st : Strand} (hst : st ∈ drawn) {start stop : PointId}
    (hstart : s.images.lookup st.source = some start)
    (hstop : s.images.lookup st.edge.target = some stop) :
    s.cursor.graph.IsPath start st.trace stop := by
  obtain ⟨last, hlast, hforced⟩ := (h.woven.holds st hst).forced
  obtain rfl : last = stop := Option.some.inj (hlast.symm.trans hstop)
  refine ⟨?_, hforced.isPath⟩
  rw [h.woven.heads _ _ hstart]
  exact List.mem_map_of_mem (List.mem_filter.mpr ⟨hst, decide_eq_true rfl⟩)

/-- The primitive graph of a lowering is made of strands: one for each chain that is emitted for a
reachable edge, between the images of the ends of the edge, and no others. Every primitive edge lies
on a strand. -/
structure Laid (registry : Registry) (rich : FlowGraph) (l : Lowering)
    (image : PointId → PointId) (drawn : List Strand) : Prop where
  root : image rich.root = l.graph.root
  origins : ∀ p, rich.Reaches p → l.origin? (image p) = some p
  chains : ∀ p, rich.Reaches p → ∀ t ∈ rich.successors p, ∀ chain ∈ l.chainsOf registry t.op,
    ∃ st ∈ drawn, st.Spells p t.target chain
  strands : ∀ st ∈ drawn, rich.Reaches st.source ∧ st.edge ∈ rich.successors st.source ∧
    ∃ chain ∈ l.chainsOf registry st.edge.op, st.Spells st.source st.edge.target chain
  paths : ∀ st ∈ drawn, l.graph.IsPath (image st.source) st.trace (image st.edge.target) ∧
    ∀ u ∈ st.trace, l.origin? u.target = some st.edge.target
  edges : ∀ q, ∀ u ∈ l.graph.successors q, ∃ st ∈ drawn, u ∈ st.trace

theorem Spun.laid {s : Lowering.Progress} {drawn : List Strand}
    (h : Spun registry depth rich s drawn) :
    Laid registry rich (s.lowering (leafRules depth (rich.assignments registry)))
      (fun p => (s.images.lookup p).getD .root) drawn := by
  have himage : ∀ p, rich.Reaches p →
      s.images.lookup p = some ((s.images.lookup p).getD .root) := by
    intro p hp
    obtain ⟨q, hq⟩ := h.lowered.exists_image hp
    rw [hq, Option.getD_some]
  have hedge : ∀ st ∈ drawn, rich.Reaches st.source ∧ st.edge ∈ rich.successors st.source :=
    fun st hst => mem_reachableEdges_iff.mp (h.weaves.only st hst).1
  refine ⟨?_, ?_, ?_, ?_, ?_, h.woven.traced⟩
  · show (s.images.lookup rich.root).getD .root = _
    rw [h.lowered.image_root]
    rfl
  · exact fun p hp => h.lowered.sound.images p _ (himage p hp)
  · intro p hp t ht chain hchain
    rw [h.lowered.chainsOf_eq hp ht] at hchain
    obtain ⟨outcome, ho, rfl⟩ := List.mem_map.mp hchain
    exact h.weaves.all (p, t) (mem_reachableEdges_iff.mpr ⟨hp, ht⟩) outcome ho
  · intro st hst
    obtain ⟨hp, ht⟩ := hedge st hst
    obtain ⟨outcome, ho, hspells⟩ := (h.weaves.only st hst).2
    refine ⟨hp, ht, _, ?_, hspells⟩
    rw [h.lowered.chainsOf_eq hp ht]
    exact List.mem_map_of_mem ho
  · intro st hst
    obtain ⟨hp, ht⟩ := hedge st hst
    exact ⟨h.isPath hst (himage _ hp) (himage _ (hp.step ht)), (h.woven.holds st hst).origins⟩

theorem exists_laid {l : Lowering} (hl : rich.lower registry depth = .ok l) :
    ∃ image drawn, Laid registry rich l image drawn := by
  obtain ⟨s, drawn, h, rfl⟩ := exists_spun hl
  exact ⟨_, drawn, h.laid⟩

end FlowGraph

end SliceLineage
