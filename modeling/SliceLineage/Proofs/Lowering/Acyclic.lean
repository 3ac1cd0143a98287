import SliceLineage.Proofs.Flow.Acyclic
import SliceLineage.Proofs.Lowering.Refinement

/-!
# Lowering keeps graphs acyclic

A path through a primitive graph goes along one strand after the other. Between two images it
stands for a path through the rich graph, and inside of a strand it cannot turn back. So a cycle of
the primitive graph leads along whole strands, and stands for a cycle of the rich graph.

* `Lowering.Progress.Forced.path_cases`: a path inside of a strand stays there or comes to its end.
* `FlowGraph.Spun.exists_path`: a path between images stands for a rich one.
* `FlowGraph.Spun.acyclic`: the result.
-/

namespace SliceLineage

namespace Lowering.Progress

variable {s : Progress} {stop y : PointId}

/-- A path from inside of a strand ends there, or goes to the end of the strand and on from it. -/
theorem Forced.path_cases {rest : Trace} :
    ∀ {x : PointId} {trace : Trace}, s.Forced x rest stop → s.cursor.graph.IsPath x trace y →
      (¬ s.IsImage y ∧ ∃ more, rest = trace ++ more) ∨
        ∃ later, trace = rest ++ later ∧ s.cursor.graph.IsPath stop later y := by
  induction rest with
  | nil =>
      intro x trace h hpath
      obtain rfl : x = stop := h
      exact Or.inr ⟨trace, rfl, hpath⟩
  | cons u rest ih =>
      rintro x trace ⟨hsucc, -, himage, hrest⟩ hpath
      cases trace with
      | nil =>
          obtain rfl : x = y := hpath
          exact Or.inl ⟨himage, u :: rest, rfl⟩
      | cons t trace =>
          obtain ⟨ht, hpath⟩ := hpath
          rw [hsucc] at ht
          obtain rfl : t = u := List.mem_singleton.mp ht
          rcases ih hrest hpath with ⟨hy, more, rfl⟩ | ⟨later, rfl, hlater⟩
          · exact Or.inl ⟨hy, more, rfl⟩
          · exact Or.inr ⟨later, rfl, hlater⟩

/-- From the end of each of its edges on, a strand leads to its end. -/
theorem Forced.exists_suffix {rest : Trace} :
    ∀ {u v : Transition}, s.Forced u.target rest stop → v ∈ u :: rest →
      ∃ later, s.Forced v.target later stop ∧ v :: later <:+ u :: rest := by
  induction rest with
  | nil =>
      intro u v h hv
      obtain rfl : v = u := List.mem_singleton.mp hv
      exact ⟨[], h, List.suffix_refl _⟩
  | cons w rest ih =>
      intro u v h hv
      rcases List.mem_cons.mp hv with rfl | hv
      · exact ⟨w :: rest, h, List.suffix_refl _⟩
      · obtain ⟨later, hlater, hsuffix⟩ := ih h.2.2.2 hv
        exact ⟨later, hlater, hsuffix.trans (List.suffix_cons u _)⟩

end Lowering.Progress

namespace FlowGraph

variable {registry : Registry} {depth : Nat} {rich : FlowGraph} {s : Lowering.Progress}
  {drawn : List Strand} {trace : Trace} {p q start stop : PointId}

/-- **A path between images stands for a path of the rich graph.** -/
theorem Spun.exists_path (h : Spun registry depth rich s drawn)
    (hstart : s.images.lookup p = some start) (hstop : s.images.lookup q = some stop)
    (hpath : s.cursor.graph.IsPath start trace stop) :
    ∃ above, rich.IsPath p above q ∧ (above = [] → trace = []) := by
  -- the path may be cut after its first strand, which is not empty
  induction hlength : trace.length using Nat.strong_induction_on generalizing trace p start with
  | _ n ih =>
    cases trace with
    | nil =>
        obtain rfl : start = stop := hpath
        exact ⟨[], h.lowered.sound.eq_of_image hstart hstop, fun _ => rfl⟩
    | cons t trace =>
        obtain ⟨ht, hpath⟩ := hpath
        rw [h.woven.heads p start hstart] at ht
        obtain ⟨st, hheads, rfl⟩ := List.mem_map.mp ht
        obtain ⟨hst, hsource⟩ := List.mem_filter.mp hheads
        obtain rfl : st.source = p := of_decide_eq_true hsource
        obtain ⟨next, hnext, hforced⟩ := (h.woven.holds st hst).forced
        rcases hforced.path_cases hpath with ⟨himage, -⟩ | ⟨later, rfl, hlater⟩
        · exact absurd ⟨q, hstop⟩ himage
        · have hlt : later.length < n := by
            rw [← hlength]
            simp only [List.length_cons, List.length_append]
            omega
          obtain ⟨above, habove, -⟩ := ih _ hlt hnext hlater rfl
          exact ⟨st.edge :: above, ⟨(h.mem_successors hst).2, habove⟩, fun hnil => by cases hnil⟩

/-- A point that is entered is on the way to an image, and the way does not come back. -/
theorem Spun.exists_forced (h : Spun registry depth rich s drawn) {v : Transition}
    (hv : v ∈ s.cursor.graph.successors q) :
    ∃ p rest stop, s.images.lookup p = some stop ∧ s.Forced v.target rest stop ∧
      v.target ∉ rest.map Transition.target := by
  obtain ⟨st, hst, hmem⟩ := h.woven.traced q v hv
  have hholds := h.woven.holds st hst
  obtain ⟨stop, hstop, hforced⟩ := hholds.forced
  obtain ⟨rest, hrest, hsuffix⟩ := hforced.exists_suffix hmem
  have hnodup := hholds.nodup.sublist (hsuffix.sublist.map Transition.target)
  exact ⟨st.edge.target, rest, stop, hstop, hrest, (List.nodup_cons.mp hnodup).1⟩

/-- **The primitive graph of an acyclic graph is acyclic.** -/
theorem Spun.acyclic (h : Spun registry depth rich s drawn) (hg : rich.Acyclic) :
    s.cursor.graph.Acyclic := by
  intro x trace hpath
  rcases trace.eq_nil_or_concat' with rfl | ⟨before, v, rfl⟩
  · rfl
  -- the last edge enters `x`
  obtain ⟨o, -, hv, rfl⟩ := hpath.exists_of_append
  obtain ⟨p, rest, stop, hstop, hforced, hback⟩ := h.exists_forced hv
  rcases hforced.path_cases hpath with ⟨-, more, rfl⟩ | ⟨later, hlater, hpath'⟩
  · exact absurd (by simp) hback
  · -- turned round to the end of the strand, the cycle leads from an image to itself
    obtain ⟨above, habove, hempty⟩ := h.exists_path hstop hstop (hpath'.append hforced.isPath)
    have hnil := hempty (hg p above habove)
    obtain ⟨rfl, rfl⟩ := List.append_eq_nil_iff.mp hnil
    exact hlater

end FlowGraph

end SliceLineage
