import SliceLineage.Proofs.Build.Invariants
import SliceLineage.Proofs.Reachability

/-!
# The shape of built graphs

In the graph of a function, points are shared by empty edges only: an edge that does something leads
to a point of its own. So how often a path can take such an edge is decided where the edge begins.

* `FlowGraph.Wired`: this shape; `FunctionDecl.wired_graph`: graphs of functions have it.
* `FlowGraph.Walked`: what holds along bounded paths of a wired graph.
* `FlowGraph.Walked.admits`: a bounded path may always go on by an edge that does something.
-/

namespace SliceLineage

namespace FlowGraph

/-- Nothing leads to the root or from a point to itself, edges are not repeated, and the target of
an edge that does something has no other edge to it. -/
structure Wired (g : FlowGraph) : Prop where
  rootless : ∀ p, ∀ t ∈ g.successors p, t.target ≠ g.root
  loopless : ∀ p, ∀ t ∈ g.successors p, t.target ≠ p
  single : ∀ p, ∀ t ∈ g.successors p, t.op ≠ .noop →
    ∀ q, ∀ u ∈ g.successors q, u.target = t.target → q = p ∧ u = t
  nodup : ∀ p, (g.successors p).Nodup

/-- Two edges between the same points are one. -/
theorem Wired.eq_of_target_eq {g : FlowGraph} (hg : g.Wired) {p : PointId} {t u : Transition}
    (ht : t ∈ g.successors p) (hu : u ∈ g.successors p) (htarget : u.target = t.target) :
    u = t := by
  by_cases hop : t.op = .noop
  · by_cases huop : u.op = .noop
    · obtain ⟨target, op⟩ := t
      obtain ⟨target', op'⟩ := u
      simp_all
    · exact (hg.single p u hu huop p t ht htarget.symm).2.symm
  · exact (hg.single p t ht hop p u hu htarget).2

end FlowGraph

namespace Build

section

variable {s : BuildState} {new t : Transition} {q : PointId}

theorem Adds.target_ne_root (h : Adds s new) (hs : Grounded s) :
    new.target ≠ s.cursor.graph.root := by
  rcases h with ⟨hnew, -⟩ | ⟨-, hhub, -⟩
  · rw [hnew]
    exact hs.root_ne
  · exact hhub.inner

theorem Adds.target_ne_current (h : Adds s new) (hs : Grounded s) :
    new.target ≠ s.cursor.current := by
  rcases h with ⟨hnew, -⟩ | ⟨-, -, hne, -⟩
  · intro hcurrent
    have hlt := hs.current
    rw [← hcurrent, hnew] at hlt
    exact Nat.lt_irrefl _ hlt
  · exact hne

/-- The edge that is added has a target of its own, or all edges to it are empty. -/
theorem Adds.noops (h : Adds s new) (hs : Grounded s) (ht : t ∈ s.cursor.graph.successors q)
    (htarget : t.target = new.target) : new.op = .noop ∧ t.op = .noop := by
  rcases h with ⟨hnew, -⟩ | ⟨hop, hhub, -⟩
  · exact absurd (htarget.trans hnew) (hs.target_ne ht)
  · exact ⟨hop, hhub.noops q t ht htarget⟩

theorem Adds.not_mem (h : Adds s new) (hs : Grounded s) :
    new ∉ s.cursor.graph.successors s.cursor.current := by
  rcases h with ⟨hnew, -⟩ | ⟨-, -, -, hnot⟩
  · exact fun hmem => hs.target_ne hmem hnew
  · exact hnot

end

/-- An edge that a step adds keeps the graph wired. -/
theorem Adds.wired {s : BuildState} {new : Transition} (h : Adds s new) (hs : Grounded s)
    (hw : s.cursor.graph.Wired) {g : FlowGraph} (hroot : g.root = s.cursor.graph.root)
    (hsucc : ∀ q, g.successors q = if s.cursor.current = q
      then s.cursor.graph.successors q ++ [new] else s.cursor.graph.successors q) : g.Wired where
  rootless p t ht := by
    rw [hroot]
    rcases mem_of_added hsucc ht with ht | ⟨-, rfl⟩
    · exact hw.rootless p t ht
    · exact h.target_ne_root hs
  loopless p t ht := by
    rcases mem_of_added hsucc ht with ht | ⟨rfl, rfl⟩
    · exact hw.loopless p t ht
    · exact h.target_ne_current hs
  single p t ht hop q u hu htarget := by
    rcases mem_of_added hsucc ht with ht | ⟨rfl, rfl⟩
    · rcases mem_of_added hsucc hu with hu | ⟨-, rfl⟩
      · exact hw.single p t ht hop q u hu htarget
      · exact absurd (h.noops hs ht htarget.symm).2 hop
    · rcases mem_of_added hsucc hu with hu | ⟨rfl, rfl⟩
      · exact absurd (h.noops hs hu htarget).1 hop
      · exact ⟨rfl, rfl⟩
  nodup p := by
    rw [hsucc]
    split
    · rename_i hp
      refine List.nodup_append.mpr ⟨hw.nodup p, by simp, fun t ht u hu => ?_⟩
      rw [List.mem_singleton.mp hu]
      rintro rfl
      exact h.not_mem hs (hp ▸ ht)
    · exact hw.nodup p

theorem Step.wired {s s' : BuildState} (h : Step s s') (hs : Grounded s)
    (hw : s.cursor.graph.Wired) : s'.cursor.graph.Wired := by
  have hroot := h.grows.root
  rcases h.successors_cases with hsame | ⟨new, hadds, -, hsucc⟩
  · refine ⟨fun p t ht => ?_, fun p t ht => ?_, fun p t ht hop q u hu => ?_, fun p => ?_⟩
    · rw [hroot]
      exact hw.rootless p t (hsame p ▸ ht)
    · exact hw.loopless p t (hsame p ▸ ht)
    · exact hw.single p t (hsame p ▸ ht) hop q u (hsame q ▸ hu)
    · rw [hsame p]
      exact hw.nodup p
  · exact hadds.wired hs hw hroot hsucc

end Build

/-- **The graph of a function is wired.** -/
theorem FunctionDecl.wired_graph {registry : Registry} {f : FunctionDecl} {g : FlowGraph}
    (h : f.graph registry = .ok g) : g.Wired := by
  have hi : Build.Invariant fun s => Build.Grounded s ∧ s.cursor.graph.Wired :=
    Build.invariant_grounded.and fun s s' hs hstep hw => hstep.wired hs hw
  obtain ⟨s, hs, rfl⟩ := FunctionDecl.exists_of_graph hi h fun span scopes => by
    have hnone : ∀ p, (Cursor.start span).graph.successors p = [] := Cursor.successors_start span
    refine ⟨Build.grounded_start span scopes, ?_⟩
    constructor <;> simp [hnone]
  exact hs.2

namespace FlowGraph

/-- A path that was walked from the root to `p`, last transition first. An edge that does something
was taken as often as the walk left its source, and the walk entered that source before, unless it
began there. -/
structure Walked (g : FlowGraph) (limit : Nat) (path : Trace) (p : PointId) : Prop where
  reaches : g.Reaches p
  bounded : ∀ q, path.entries q ≤ limit
  rootless : path.entries g.root = 0
  balanced : ∀ q, ∀ t ∈ g.successors q, t.op ≠ .noop →
    path.entries t.target + (if p = q then 1 else 0) ≤
      path.entries q + if g.root = q then 1 else 0

variable {g : FlowGraph} {limit : Nat} {path : Trace} {p : PointId}

theorem walked_root (g : FlowGraph) (limit : Nat) : g.Walked limit [] g.root where
  reaches := .root g
  bounded _ := Nat.zero_le _
  rootless := rfl
  balanced q t _ _ := by simp [Trace.entries]

theorem Walked.step (hg : g.Wired) (h : g.Walked limit path p) {t : Transition}
    (ht : t ∈ g.successors p) (hlt : path.entries t.target < limit) :
    g.Walked limit (t :: path) t.target where
  reaches := h.reaches.step ht
  bounded q := by
    have hq := h.bounded q
    rw [Trace.entries_cons]
    split
    · rename_i htarget
      rw [htarget] at hlt
      omega
    · omega
  rootless := by
    rw [Trace.entries_cons, if_neg (hg.rootless p t ht), h.rootless]
  balanced q u hu hop := by
    have hq := h.balanced q u hu hop
    rw [Trace.entries_cons, Trace.entries_cons]
    by_cases htarget : t.target = u.target
    · -- only one edge leads there, so the walk was at its source
      obtain ⟨rfl, rfl⟩ := hg.single q u hu hop p t ht htarget
      simp only [if_true] at hq ⊢
      omega
    · rw [if_neg htarget]
      omega

/-- **A bounded path may always go on by an edge that does something.** -/
theorem Walked.admits (h : g.Walked limit path p) {t : Transition} (ht : t ∈ g.successors p)
    (hop : t.op ≠ .noop) (hlimit : 0 < limit) : path.entries t.target < limit := by
  have hbalance := h.balanced p t ht hop
  have hbound := h.bounded p
  rw [if_pos rfl] at hbalance
  by_cases hroot : g.root = p
  · have hzero := h.rootless
    rw [hroot] at hzero
    rw [if_pos hroot] at hbalance
    omega
  · rw [if_neg hroot] at hbalance
    omega

end FlowGraph

end SliceLineage
