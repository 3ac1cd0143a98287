import SliceLineage.Flow.Cursor
import SliceLineage.Flow.Trace

/-!
# Growing graphs

A cursor never takes anything away from its graph. So a path that was put into it stays, and what
holds of every operation of the graph has to be checked for the added ones only.

* `FlowGraph.Grows`: the order in which graphs grow.
* `FlowGraph.IsPath`: a sequence of transitions that leads from one point to another.
* `FlowGraph.AllOps`: a property of the operations on all edges.
* `Cursor.exists_join`: joining another point succeeds; `Cursor.join_cases`: what it does.
-/

namespace SliceLineage

namespace FlowGraph

/-- The graph `g'` has all that `g` has, with new edges after the old ones. -/
structure Grows (g g' : FlowGraph) : Prop where
  root : g'.root = g.root
  points : g.pointCount ≤ g'.pointCount
  edges : ∀ p, g.successors p <+: g'.successors p

/-- The transitions lead from `p` to `q`, one after the other. -/
def IsPath (g : FlowGraph) (p : PointId) : Trace → PointId → Prop
  | [], q => p = q
  | t :: rest, q => t ∈ g.successors p ∧ g.IsPath t.target rest q

/-- Every edge carries an operation with the property. -/
def AllOps (g : FlowGraph) (ok : Operation → Prop) : Prop :=
  ∀ p, ∀ t ∈ g.successors p, ok t.op

theorem Grows.refl (g : FlowGraph) : g.Grows g :=
  ⟨rfl, Nat.le_refl _, fun _ => List.prefix_refl _⟩

theorem Grows.trans {g g' g'' : FlowGraph} (h : g.Grows g') (h' : g'.Grows g'') : g.Grows g'' :=
  ⟨h'.root.trans h.root, Nat.le_trans h.points h'.points, fun p => (h.edges p).trans (h'.edges p)⟩

theorem IsPath.grow {g g' : FlowGraph} (hg : g.Grows g') {ts : Trace} {p q : PointId}
    (h : g.IsPath p ts q) : g'.IsPath p ts q := by
  induction ts generalizing p with
  | nil => exact h
  | cons t rest ih => exact ⟨(hg.edges p).subset h.1, ih h.2⟩

theorem IsPath.append {g : FlowGraph} {ts us : Trace} {p q o : PointId} (h : g.IsPath p ts q)
    (h' : g.IsPath q us o) : g.IsPath p (ts ++ us) o := by
  induction ts generalizing p with
  | nil =>
      obtain rfl : p = q := h
      exact h'
  | cons t rest ih => exact ⟨h.1, ih h.2⟩

/-- A path is cut where one part of it ends. -/
theorem IsPath.exists_of_append {g : FlowGraph} {ts us : Trace} {q : PointId} :
    ∀ {p : PointId}, g.IsPath p (ts ++ us) q → ∃ o, g.IsPath p ts o ∧ g.IsPath o us q := by
  induction ts with
  | nil => exact fun {p} h => ⟨p, rfl, h⟩
  | cons t ts ih =>
      intro p h
      obtain ⟨o, hfirst, hrest⟩ := ih h.2
      exact ⟨o, ⟨h.1, hfirst⟩, hrest⟩

theorem successors_allocate (g : FlowGraph) (span : Option Span) (p : PointId) :
    (g.allocate span).2.successors p = g.successors p := by
  cases span <;> rfl

theorem pointCount_allocate (g : FlowGraph) (span : Option Span) :
    (g.allocate span).2.pointCount = g.pointCount + 1 := by
  cases span <;> rfl

theorem grows_allocate (g : FlowGraph) (span : Option Span) : g.Grows (g.allocate span).2 where
  root := by cases span <;> rfl
  points := by rw [pointCount_allocate]; omega
  edges p := ⟨[], by rw [successors_allocate, List.append_nil]⟩

theorem grows_insert (g : FlowGraph) (source target : PointId) (op : Operation) :
    g.Grows (g.insert source target op) where
  root := rfl
  points := Nat.le_refl _
  edges p := by
    rw [successors_insert]
    split
    · exact List.prefix_append _ _
    · exact List.prefix_refl _

theorem mem_successors_insert {g : FlowGraph} {source target p : PointId} {op : Operation}
    {t : Transition} : t ∈ (g.insert source target op).successors p ↔
      t ∈ g.successors p ∨ p = source ∧ t = ⟨target, op⟩ := by
  rw [successors_insert]
  by_cases h : source = p
  · simp [h]
  · simp [h, Ne.symm h]

theorem AllOps.allocate {g : FlowGraph} {ok : Operation → Prop} (h : g.AllOps ok)
    (span : Option Span) : (g.allocate span).2.AllOps ok := by
  intro p t ht
  rw [successors_allocate] at ht
  exact h p t ht

theorem AllOps.insert {g : FlowGraph} {ok : Operation → Prop} (h : g.AllOps ok)
    {op : Operation} (hop : ok op) (source target : PointId) :
    (g.insert source target op).AllOps ok := by
  intro p t ht
  rcases mem_successors_insert.mp ht with ht | ⟨-, rfl⟩
  · exact h p t ht
  · exact hop

end FlowGraph

namespace Cursor

open FlowGraph (AllOps Grows)

variable {c c' : Cursor} {ok : Operation → Prop} {op : Operation} {q : PointId}

theorem successors_start (span : Option Span) (p : PointId) :
    (start span).graph.successors p = [] := by
  cases span <;> simp [start, FlowGraph.empty, FlowGraph.setReference, FlowGraph.successors]

theorem allOps_start (ok : Operation → Prop) (span : Option Span) :
    (start span).graph.AllOps ok := by
  intro p t ht
  rw [successors_start] at ht
  cases ht

theorem grows_append (c : Cursor) (op : Operation) (span : Option Span) :
    c.graph.Grows (c.append op span).graph :=
  (c.graph.grows_allocate span).trans (FlowGraph.grows_insert _ _ _ _)

theorem allOps_append (h : c.graph.AllOps ok) (hop : ok op) (span : Option Span) :
    (c.append op span).graph.AllOps ok :=
  (h.allocate span).insert hop _ _

theorem pointCount_append (c : Cursor) (op : Operation) (span : Option Span) :
    (c.append op span).graph.pointCount = c.graph.pointCount + 1 :=
  c.graph.pointCount_allocate span

theorem successors_append (c : Cursor) (op : Operation) (span : Option Span) (p : PointId) :
    (c.append op span).graph.successors p =
      if c.current = p then c.graph.successors p ++ [⟨⟨c.graph.pointCount⟩, op⟩]
      else c.graph.successors p := by
  show ((c.graph.allocate span).2.insert c.current ⟨c.graph.pointCount⟩ op).successors p = _
  rw [FlowGraph.successors_insert, FlowGraph.successors_allocate]

theorem mem_successors_append (c : Cursor) (op : Operation) (span : Option Span) :
    ⟨⟨c.graph.pointCount⟩, op⟩ ∈ (c.append op span).graph.successors c.current :=
  FlowGraph.mem_successors_insert.mpr (Or.inr ⟨rfl, rfl⟩)

theorem link_eq (hne : q ≠ c.current) :
    c.link op q = (.ok (), ⟨c.graph.insert c.current q op, q⟩) := if_neg hne

/-- What a successful join does: it leads to `q` by an empty edge, old or new. -/
theorem join_cases (h : c.join q = (.ok (), c')) :
    c'.current = q ∧ (c'.graph = c.graph ∧ ⟨q, .noop⟩ ∈ c.graph.successors c.current ∨
      c'.graph = c.graph.insert c.current q .noop ∧ q ≠ c.current ∧
        ⟨q, .noop⟩ ∉ c.graph.successors c.current) := by
  unfold join at h
  split at h
  · rename_i hedge
    cases h
    exact ⟨rfl, Or.inl ⟨rfl, List.contains_iff_mem.mp hedge⟩⟩
  · rename_i hedge
    unfold link at h
    split at h
    · cases h
    · rename_i hne
      cases h
      exact ⟨rfl, Or.inr ⟨rfl, hne, fun hmem => hedge (List.contains_iff_mem.mpr hmem)⟩⟩

/-- Joining another point succeeds. -/
theorem exists_join (hne : q ≠ c.current) : ∃ c', c.join q = (.ok (), c') := by
  unfold join
  split
  · exact ⟨_, rfl⟩
  · exact ⟨_, link_eq hne⟩

theorem grows_join (h : c.join q = (.ok (), c')) : c.graph.Grows c'.graph := by
  obtain ⟨-, ⟨hg, -⟩ | ⟨hg, -⟩⟩ := join_cases h
  · rw [hg]
    exact Grows.refl _
  · rw [hg]
    exact FlowGraph.grows_insert _ _ _ _

theorem mem_successors_join (h : c.join q = (.ok (), c')) :
    ⟨q, .noop⟩ ∈ c'.graph.successors c.current := by
  obtain ⟨-, ⟨hg, hmem⟩ | ⟨hg, -⟩⟩ := join_cases h
  · rw [hg]
    exact hmem
  · rw [hg]
    exact FlowGraph.mem_successors_insert.mpr (Or.inr ⟨rfl, rfl⟩)

theorem pointCount_join (h : c.join q = (.ok (), c')) :
    c'.graph.pointCount = c.graph.pointCount := by
  obtain ⟨-, ⟨hg, -⟩ | ⟨hg, -⟩⟩ := join_cases h <;> rw [hg]
  rfl

theorem allOps_join (h : c.join q = (.ok (), c')) (hg : c.graph.AllOps ok) (hnoop : ok .noop) :
    c'.graph.AllOps ok := by
  obtain ⟨-, ⟨hsame, -⟩ | ⟨hsame, -⟩⟩ := join_cases h
  · rw [hsame]
    exact hg
  · rw [hsame]
    exact hg.insert hnoop _ _

end Cursor

end SliceLineage
