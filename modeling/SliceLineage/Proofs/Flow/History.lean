import Mathlib.Data.List.Perm.Basic
import Mathlib.Data.List.Nodup
import SliceLineage.Proofs.Flow.Growth

/-!
# The history of a graph

A graph that grows at a cursor gets a new point for each operation with an effect. The points are
numbered in the order in which they are made, so that the operations can be read off the finished
graph in the order in which they were appended.

* `FlowGraph.history`: the operations with an effect, by the points that they lead to.
* `FlowGraph.Records`: these are the operations, and each has a target of its own.
* `Cursor.records_append`, `Cursor.records_join`, ..: what the steps of a cursor record.
-/

namespace SliceLineage

namespace FlowGraph

/-- The edges with an effect. -/
def effects (g : FlowGraph) : List (PointId × Transition) := g.edges.filter (!·.2.op.isNoop)

/-- The operations with an effect, by the points that they lead to. -/
def history (g : FlowGraph) : List Operation :=
  (g.effects.mergeSort fun a b => a.2.target.index ≤ b.2.target.index).map (·.2.op)

/-- The operations with an effect in the order of their targets, which are all different. -/
def Records (g : FlowGraph) (ops : List Operation) : Prop :=
  ∃ es : List (PointId × Transition), es.Perm g.effects ∧
    es.Pairwise (fun a b => a.2.target.index < b.2.target.index) ∧
    (∀ e ∈ es, e.2.target.index < g.pointCount) ∧ es.map (·.2.op) = ops

/-- The history has each operation with an effect once for each of its edges. -/
theorem perm_history (g : FlowGraph) : g.history.Perm (g.effects.map (·.2.op)) :=
  (List.mergeSort_perm _ _).map _

/-- What a graph records is its history. -/
theorem Records.history_eq {g : FlowGraph} {ops : List Operation} (h : g.Records ops) :
    g.history = ops := by
  obtain ⟨es, hperm, hsorted, -, rfl⟩ := h
  have hdistinct : (es.map (·.2.target.index)).Nodup :=
    hsorted.map _ fun _ _ hlt => Nat.ne_of_lt hlt
  have hsame : (g.effects.mergeSort fun a b => a.2.target.index ≤ b.2.target.index).Perm es :=
    (List.mergeSort_perm _ _).trans hperm.symm
  have hmerged : (g.effects.mergeSort fun a b => a.2.target.index ≤ b.2.target.index).Pairwise
      fun a b => decide (a.2.target.index ≤ b.2.target.index) = true :=
    List.pairwise_mergeSort (fun a b c hab hbc => by simp at *; omega)
      (fun a b => by simp; omega) g.effects
  have heq : (g.effects.mergeSort fun a b => a.2.target.index ≤ b.2.target.index) = es := by
    refine List.Perm.eq_of_pairwise (fun a b ha hb hab hba => ?_) hmerged
      (hsorted.imp fun hlt => decide_eq_true (Nat.le_of_lt hlt)) hsame
    exact List.inj_on_of_nodup_map hdistinct (hsame.mem_iff.mp ha) hb
      (Nat.le_antisymm (of_decide_eq_true hab) (of_decide_eq_true hba))
  rw [history, heq]

/-! ## One edge more -/

/-- The edges that leave one point. -/
theorem perm_edges_from (g : FlowGraph) (p : PointId) :
    ((g.outgoing.toList.filter (p == ·.1)).flatMap fun entry => entry.2.map (entry.1, ·)).Perm
      ((g.successors p).map (p, ·)) := by
  have hnodup : g.outgoing.toList.Nodup := by
    refine Std.TreeMap.distinct_keys_toList.imp ?_
    rintro a _ hne rfl
    exact hne Std.ReflCmp.compare_self
  cases hp : g.outgoing[p]? with
  | none =>
      have hnone : g.outgoing.toList.filter (p == ·.1) = [] := by
        rw [List.filter_eq_nil_iff]
        rintro ⟨q, ts⟩ hmem heq
        obtain rfl := eq_of_beq heq
        rw [Std.TreeMap.mem_toList_iff_getElem?_eq_some, hp] at hmem
        cases hmem
      simp [hnone, successors, Std.TreeMap.getD_eq_getD_getElem?, hp]
  | some ts =>
      have honly : (g.outgoing.toList.filter (p == ·.1)).Perm [(p, ts)] := by
        refine (List.perm_ext_iff_of_nodup (hnodup.filter _) (by simp)).mpr fun entry => ?_
        obtain ⟨q, us⟩ := entry
        simp only [List.mem_filter, Std.TreeMap.mem_toList_iff_getElem?_eq_some, beq_iff_eq,
          List.mem_singleton, Prod.mk.injEq]
        constructor
        · rintro ⟨hq, rfl⟩
          exact ⟨rfl, Option.some.inj (hq.symm.trans hp)⟩
        · rintro ⟨rfl, rfl⟩
          exact ⟨hp, rfl⟩
      refine (honly.flatMap_right _).trans ?_
      simp [successors, Std.TreeMap.getD_eq_getD_getElem?, hp]

theorem perm_edges_insert (g : FlowGraph) (source target : PointId) (op : Operation) :
    (g.insert source target op).edges.Perm (g.edges ++ [(source, ⟨target, op⟩)]) := by
  have hother : (g.outgoing.toList.filter fun entry => decide ¬(source == entry.1) = true) =
      g.outgoing.toList.filter fun entry => !(source == entry.1) := by
    refine List.filter_congr fun entry _ => ?_
    cases source == entry.1 <;> rfl
  have hold : g.edges.Perm ((g.successors source).map (source, ·) ++
      (g.outgoing.toList.filter fun entry => !(source == entry.1)).flatMap
        fun entry => entry.2.map (entry.1, ·)) := by
    refine ((List.filter_append_perm (source == ·.1) _).symm.flatMap_right _).trans ?_
    rw [List.flatMap_append]
    exact (g.perm_edges_from source).append_right _
  have hnew : (g.insert source target op).edges.Perm
      ((g.successors source ++ [Transition.mk target op]).map (source, ·) ++
        (g.outgoing.toList.filter fun entry => !(source == entry.1)).flatMap
          fun entry => entry.2.map (entry.1, ·)) := by
    have hperm : (g.insert source target op).outgoing.toList.Perm _ :=
      Std.TreeMap.toList_insert_perm
    rw [hother] at hperm
    exact hperm.flatMap_right _
  rw [List.map_append, List.append_assoc] at hnew
  refine hnew.trans (List.Perm.trans ?_ (hold.symm.append_right _))
  rw [List.append_assoc]
  exact List.perm_append_comm.append_left _

theorem perm_effects_insert (g : FlowGraph) (source target : PointId) (op : Operation) :
    (g.insert source target op).effects.Perm
      (g.effects ++ if op.isNoop then [] else [(source, ⟨target, op⟩)]) := by
  have hperm := (g.perm_edges_insert source target op).filter (!·.2.op.isNoop)
  rw [List.filter_append] at hperm
  cases hop : op.isNoop <;> simpa [effects, hop] using hperm

variable {g : FlowGraph} {ops : List Operation}

theorem Records.allocate (h : g.Records ops) (span : Option Span) :
    (g.allocate span).2.Records ops := by
  obtain ⟨es, hperm, hsorted, hbound, hops⟩ := h
  have hsame : (g.allocate span).2.edges = g.edges := by cases span <;> rfl
  refine ⟨es, by rwa [effects, hsame], hsorted, fun e he => ?_, hops⟩
  rw [pointCount_allocate]
  exact Nat.lt_succ_of_lt (hbound e he)

/-- An empty edge is not recorded. -/
theorem Records.insert_noop (h : g.Records ops) (source target : PointId) :
    (g.insert source target .noop).Records ops := by
  obtain ⟨es, hperm, hrest⟩ := h
  refine ⟨es, hperm.trans ?_, hrest⟩
  have hnew := g.perm_effects_insert source target .noop
  simp only [Operation.isNoop, if_true, List.append_nil] at hnew
  exact hnew.symm

end FlowGraph

namespace Cursor

variable {c c' : Cursor} {ops : List Operation}

theorem records_start (span : Option Span) : (start span).graph.Records [] :=
  ⟨[], by cases span <;> exact .refl _, .nil, by simp, rfl⟩

/-- An operation with an effect is recorded after all others. -/
theorem records_append (h : c.graph.Records ops) (op : Operation) (span : Option Span) :
    (c.append op span).graph.Records (if op.isNoop then ops else ops ++ [op]) := by
  have hgrown := h.allocate span
  cases hop : op.isNoop with
  | true =>
      obtain rfl : op = .noop := by
        cases op with
        | noop => rfl
        | _ => cases hop
      exact hgrown.insert_noop _ _
  | false =>
      obtain ⟨es, hperm, hsorted, hbound, rfl⟩ := h
      have hsame : (c.graph.allocate span).2.effects = c.graph.effects := by
        cases span <;> rfl
      have hnew := (c.graph.allocate span).2.perm_effects_insert c.current
        (c.graph.allocate span).1 op
      rw [hop, if_neg Bool.false_ne_true, hsame] at hnew
      refine ⟨es ++ [(c.current, ⟨(c.graph.allocate span).1, op⟩)],
        (hperm.append_right _).trans hnew.symm, ?_, ?_, by simp⟩
      · rw [List.pairwise_append]
        refine ⟨hsorted, List.pairwise_singleton _ _, fun e he e' he' => ?_⟩
        rw [List.mem_singleton.mp he']
        exact hbound e he
      · intro e he
        have hcount : (c.append op span).graph.pointCount = c.graph.pointCount + 1 :=
          pointCount_append c op span
        rw [hcount]
        rcases List.mem_append.mp he with he | he
        · exact Nat.lt_succ_of_lt (hbound e he)
        · rw [List.mem_singleton.mp he]
          exact Nat.lt_succ_self _

theorem records_join (h : c.graph.Records ops) {target : PointId}
    (hjoin : c.join target = (.ok (), c')) : c'.graph.Records ops := by
  unfold join at hjoin
  split at hjoin
  · cases hjoin
    exact h
  · unfold link at hjoin
    split at hjoin
    · cases hjoin
    · cases hjoin
      exact h.insert_noop _ _

end Cursor

end SliceLineage
