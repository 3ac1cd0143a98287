import SliceLineage.Proofs.Flow.Growth

/-!
# Acyclic graphs

In an acyclic graph no path comes back to where it began. So a path visits no point twice, and a
limit on how often points are entered, unless it is zero, leaves all of its continuations.

* `FlowGraph.Acyclic`: no path comes back.
* `FlowGraph.Acyclic.add`: an edge to a point that nothing leaves cannot close a cycle.
* `FlowGraph.Acyclic.nodup`: a path visits no point twice.
* `FlowGraph.Acyclic.entries_eq_zero`: a path does not lead to where it has been.
-/

namespace SliceLineage

namespace FlowGraph

variable {g g' : FlowGraph} {p q : PointId} {path trace : Trace}

/-- A path that comes back to where it began has no edges. -/
def Acyclic (g : FlowGraph) : Prop := ∀ p trace, g.IsPath p trace p → trace = []

theorem IsPath.congr (h : ∀ q, g'.successors q = g.successors q) :
    ∀ {p : PointId}, g'.IsPath p trace q → g.IsPath p trace q := by
  induction trace with
  | nil => exact fun hpath => hpath
  | cons t rest ih => exact fun hpath => ⟨h _ ▸ hpath.1, ih hpath.2⟩

theorem Acyclic.congr (hg : g.Acyclic) (h : ∀ q, g'.successors q = g.successors q) : g'.Acyclic :=
  fun p trace hpath => hg p trace (hpath.congr h)

/-- If nothing leaves the target of the only new edge, paths that end elsewhere are old. -/
theorem IsPath.of_added {source : PointId} {new : Transition} (hend : g.successors new.target = [])
    (hne : new.target ≠ source) (h : ∀ q, g'.successors q =
      if source = q then g.successors q ++ [new] else g.successors q) :
    ∀ {p : PointId}, g'.IsPath p trace q → g.IsPath p trace q ∨ q = new.target := by
  induction trace with
  | nil => exact fun hpath => Or.inl hpath
  | cons t rest ih =>
      rintro p ⟨ht, hrest⟩
      rw [h] at ht
      have hcases : t ∈ g.successors p ∨ t = new := by
        split at ht
        · simpa using ht
        · exact Or.inl ht
      rcases hcases with hold | rfl
      · exact (ih hrest).imp_left fun hrest => ⟨hold, hrest⟩
      · cases rest with
        | nil => exact Or.inr (Eq.symm hrest)
        | cons u rest =>
            have hu := hrest.1
            rw [h, if_neg hne.symm, hend] at hu
            cases hu

/-- **An edge to a point that nothing leaves cannot close a cycle.** -/
theorem Acyclic.add {source : PointId} {new : Transition} (hg : g.Acyclic)
    (hend : g.successors new.target = []) (hne : new.target ≠ source)
    (h : ∀ q, g'.successors q =
      if source = q then g.successors q ++ [new] else g.successors q) : g'.Acyclic := by
  intro p trace hpath
  rcases hpath.of_added hend hne h with hold | rfl
  · exact hg p trace hold
  · cases trace with
    | nil => rfl
    | cons t rest =>
        have ht := hpath.1
        rw [h, if_neg hne.symm, hend] at ht
        cases ht

/-- The part of a path up to the end of one of its edges, and the part after it. -/
theorem IsPath.exists_of_mem (h : g.IsPath p trace q) {t : Transition} (ht : t ∈ trace) :
    ∃ before after, trace = before ++ t :: after ∧ g.IsPath p (before ++ [t]) t.target ∧
      g.IsPath t.target after q := by
  obtain ⟨before, after, rfl⟩ := List.append_of_mem ht
  obtain ⟨o, hbefore, hafter⟩ := h.exists_of_append
  exact ⟨before, after, rfl, hbefore.append ⟨hafter.1, rfl⟩, hafter.2⟩

/-- **A path visits no point twice.** -/
theorem Acyclic.nodup (hg : g.Acyclic) :
    ∀ {p : PointId}, g.IsPath p trace q → (p :: trace.map Transition.target).Nodup := by
  induction trace with
  | nil => exact fun _ => by simp
  | cons t rest ih =>
      intro p hpath
      refine List.nodup_cons.mpr ⟨fun hmem => ?_, ih hpath.2⟩
      obtain ⟨u, hu, htarget⟩ := List.mem_map.mp hmem
      obtain ⟨before, -, -, hback, -⟩ := hpath.exists_of_mem hu
      rw [htarget] at hback
      exact List.append_ne_nil_of_right_ne_nil before (List.cons_ne_nil u []) (hg p _ hback)

/-- A path does not lead to where it has been. -/
theorem Acyclic.entries_eq_zero (hg : g.Acyclic) (hpath : g.IsPath q path p) {t : Transition}
    (ht : t ∈ g.successors p) : path.entries t.target = 0 := by
  refine List.countP_eq_zero.mpr fun u hu htarget => ?_
  obtain ⟨-, after, -, -, hrest⟩ := hpath.exists_of_mem hu
  have hback : g.IsPath u.target (after ++ [t]) u.target :=
    hrest.append ⟨ht, (eq_of_beq htarget).symm⟩
  exact List.append_ne_nil_of_right_ne_nil after (List.cons_ne_nil t []) (hg _ _ hback)

end FlowGraph

end SliceLineage
