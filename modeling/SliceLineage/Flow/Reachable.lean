import SliceLineage.Flow.Graph
import SliceLineage.Saturation

/-!
# Reachable points

`FlowGraph.reachable` lists the points that can be reached from the root, nearer points first.
-/

namespace SliceLineage

namespace FlowGraph

/-- The points one edge away, in the order of the edges. -/
def targets (g : FlowGraph) (p : PointId) : List PointId := (g.successors p).map Transition.target

theorem mem_edges {g : FlowGraph} {p : PointId} {t : Transition} :
    (p, t) ∈ g.edges ↔ t ∈ g.successors p := by
  simp only [edges, List.mem_flatMap, List.mem_map, successors]
  constructor
  · rintro ⟨⟨q, ts⟩, hq, t', ht', h⟩
    obtain ⟨rfl, rfl⟩ := Prod.mk.inj h
    have hg := Std.TreeMap.mem_toList_iff_getElem?_eq_some.mp hq
    rw [Std.TreeMap.getD_eq_getD_getElem?, hg]
    exact ht'
  · intro h
    rw [Std.TreeMap.getD_eq_getD_getElem?] at h
    cases hg : g.outgoing[p]? with
    | none => simp [hg] at h
    | some ts =>
        rw [hg] at h
        exact ⟨(p, ts), Std.TreeMap.mem_toList_iff_getElem?_eq_some.mpr hg, t, h, rfl⟩

/-- The root or a point that an edge leads to. -/
def IsEndpoint (g : FlowGraph) (p : PointId) : Prop :=
  p = g.root ∨ p ∈ g.edges.map fun edge => edge.2.target

theorem confined_targets (g : FlowGraph) : Confined g.targets g.IsEndpoint where
  closed := by
    intro p _ q hq
    obtain ⟨t, ht, rfl⟩ := List.mem_map.mp hq
    exact Or.inr (List.mem_map.mpr ⟨(p, t), mem_edges.mpr ht, rfl⟩)
  finite := ⟨g.root :: g.edges.map fun edge => edge.2.target, fun p hp => by
    rcases hp with rfl | hp
    · exact List.mem_cons_self
    · exact List.mem_cons_of_mem _ hp⟩

/-- The points that can be reached from the root, in breadth-first order. -/
def reachable (g : FlowGraph) : List PointId :=
  saturate g.targets g.confined_targets [g.root] [g.root] (by
    intro p hp
    exact Or.inl (List.mem_singleton.mp hp))

end FlowGraph

end SliceLineage
