import Mathlib
import SliceLineage.Proofs.Check.Success
import SliceLineage.Proofs.Lowering.Strands

/-!
# Warnings are first conflicts

A check leaves out repetitions twice: while it goes through the traces it keeps one conflict for
each primitive point, and of these it reports one for each rich point. Because a primitive point
belongs to one rich point, that is the same as keeping the first conflict of each rich point among
all conflicts of all traces.

* `firsts`: the first element of each key.
* `firsts_firsts`: leaving out repetitions by a finer key beforehand makes no difference.
* `FlowGraph.check_eq`: a check, without the search for repetitions on its way.
* `Lowering.Reports`: what a warning says about the conflict that it stands for.
* `warnings_first_conflict_per_point`: the result.
-/

namespace SliceLineage

section

variable {α κ : Type} [DecidableEq κ]

/-- The first element of each key, in order. -/
def firsts (key : α → κ) : List α → List α
  | [] => []
  | a :: rest => a :: (firsts key rest).filter (key · ≠ key a)

theorem firsts_subset (key : α → κ) (xs : List α) : firsts key xs ⊆ xs := by
  induction xs with
  | nil => exact List.Subset.refl _
  | cons a rest ih =>
      refine List.cons_subset_cons a fun b hb => ?_
      exact ih (List.mem_filter.mp hb).1

/-- No key is kept twice. -/
theorem firsts_pairwise (key : α → κ) (xs : List α) :
    (firsts key xs).Pairwise fun a b => key a ≠ key b := by
  induction xs with
  | nil => exact List.Pairwise.nil
  | cons a rest ih =>
      refine List.pairwise_cons.mpr ⟨fun b hb => ?_, ih.filter _⟩
      exact Ne.symm (of_decide_eq_true (List.mem_filter.mp hb).2)

/-- No key is lost. -/
theorem exists_mem_firsts (key : α → κ) {xs : List α} {a : α} (ha : a ∈ xs) :
    ∃ b ∈ firsts key xs, key b = key a := by
  induction xs with
  | nil => cases ha
  | cons c rest ih =>
      by_cases hkey : key a = key c
      · exact ⟨c, List.mem_cons_self, hkey.symm⟩
      · rcases List.mem_cons.mp ha with rfl | ha
        · exact absurd rfl hkey
        · obtain ⟨b, hb, hba⟩ := ih ha
          refine ⟨b, List.mem_cons_of_mem _ (List.mem_filter.mpr ⟨hb, ?_⟩), hba⟩
          rw [hba]
          exact decide_eq_true hkey

/-- What is left out of the result anyway may be left out beforehand. -/
theorem filter_firsts_filter (key : α → κ) {p : α → Bool} {q : κ → Bool}
    (hpq : ∀ a, q (key a) = true → p a = true) (xs : List α) :
    (firsts key (xs.filter p)).filter (q ∘ key) = (firsts key xs).filter (q ∘ key) := by
  induction xs with
  | nil => rfl
  | cons a rest ih =>
      have hswap : ∀ ys : List α, (ys.filter (key · ≠ key a)).filter (q ∘ key) =
          (ys.filter (q ∘ key)).filter (key · ≠ key a) := by
        intro ys
        simp only [List.filter_filter, Bool.and_comm]
      cases hp : p a with
      | true =>
          rw [List.filter_cons_of_pos hp, firsts, firsts]
          simp only [List.filter_cons, hswap, ih]
      | false =>
          have hq : q (key a) = false := Bool.eq_false_iff.mpr fun h => by
            rw [hpq a h] at hp
            cases hp
          have hother : ∀ b ∈ (firsts key rest).filter (q ∘ key), key b ≠ key a := by
            intro b hb e
            have hqb : q (key b) = true := (List.mem_filter.mp hb).2
            rw [e, hq] at hqb
            cases hqb
          rw [List.filter_cons_of_neg (by rw [hp]; exact Bool.false_ne_true), ih, firsts,
            List.filter_cons_of_neg (by rw [Function.comp_apply, hq]; exact Bool.false_ne_true),
            hswap, List.filter_eq_self.mpr fun b hb => decide_eq_true (hother b hb)]

/-- **Leaving out repetitions by a finer key beforehand makes no difference.** -/
theorem firsts_firsts {ι : Type} [DecidableEq ι] {fine : α → ι} {key : α → κ}
    (hfine : ∀ a b, fine a = fine b → key a = key b) (xs : List α) :
    firsts key (firsts fine xs) = firsts key xs := by
  induction xs with
  | nil => rfl
  | cons a rest ih =>
      have hdrop := filter_firsts_filter key (p := fun b => fine b ≠ fine a) (q := (· ≠ key a))
        (fun b hb => decide_eq_true fun e => of_decide_eq_true hb (hfine b a e)) (firsts fine rest)
      rw [firsts, firsts, firsts, ← ih]
      exact congrArg (a :: ·) hdrop

/-- A key that was seen before is not kept again. -/
theorem filter_firsts_of_seen {key : α → κ} {seen : List κ} {a : α} (ha : key a ∈ seen)
    (rest : List α) :
    (firsts key (a :: rest)).filter (key · ∉ seen) = (firsts key rest).filter (key · ∉ seen) := by
  rw [firsts, List.filter_cons_of_neg (by simpa using ha), List.filter_filter]
  apply List.filter_congr
  intro b _
  by_cases hb : key b = key a
  · simp [hb, ha]
  · simp [hb]

/-- A new key is kept, and is seen from then on. -/
theorem filter_firsts_of_not_seen {key : α → κ} {seen seen' : List κ} {a : α}
    (ha : key a ∉ seen) (hseen : ∀ k, k ∈ seen' ↔ k = key a ∨ k ∈ seen) (rest : List α) :
    (firsts key (a :: rest)).filter (key · ∉ seen) =
      a :: (firsts key rest).filter (key · ∉ seen') := by
  rw [firsts, List.filter_cons_of_pos (by simpa using ha), List.filter_filter]
  congr 1
  apply List.filter_congr
  intro b _
  by_cases hb : key b = key a
  · simp [hb, hseen]
  · simp [hb, hseen]

end

/-! ## Conflicts on the way -/

namespace Findings

/-- The findings after more conflicts: all are counted, and the first at each new point is kept. -/
theorem foldl_add (cs : List Conflict) : ∀ f : Findings,
    cs.foldl add f =
      ⟨f.total + cs.length, f.first ++ (firsts Conflict.point cs).filter
        (·.point ∉ f.first.map Conflict.point)⟩ := by
  induction cs with
  | nil => intro f; simp [firsts]
  | cons c rest ih =>
      intro f
      have hknown : f.first.any (·.point == c.point) =
          decide (c.point ∈ f.first.map Conflict.point) := by
        rw [Bool.eq_iff_iff]
        simp
      rw [List.foldl_cons, ih, add, hknown, List.length_cons]
      by_cases hc : c.point ∈ f.first.map Conflict.point
      · rw [filter_firsts_of_seen hc]
        simp only [hc, decide_true, if_true, Findings.mk.injEq, and_true]
        omega
      · have hseen : ∀ k, k ∈ (f.first ++ [c]).map Conflict.point ↔
            k = c.point ∨ k ∈ f.first.map Conflict.point := by
          intro k
          rw [List.map_append, List.mem_append, or_comm]
          exact or_congr_left List.mem_singleton
        rw [filter_firsts_of_not_seen hc hseen]
        simp only [hc, decide_false, Bool.false_eq_true, if_false, Findings.mk.injEq,
          List.append_assoc, List.singleton_append, and_true]
        omega

/-- Going through traces is going through the conflicts of all of them. -/
theorem foldlM_addTrace (traces : List Trace) : ∀ f : Findings,
    traces.foldlM addTrace f =
      (traces.mapM traceConflicts).map fun found => found.flatten.foldl add f := by
  induction traces with
  | nil => exact fun _ => rfl
  | cons trace rest ih =>
      intro f
      rw [List.foldlM_cons, List.mapM_cons, addTrace]
      cases traceConflicts trace with
      | error e => rfl
      | ok found =>
          show rest.foldlM addTrace (found.foldl add f) = _
          rw [ih]
          show _ = Except.map _ (rest.mapM traceConflicts >>= fun later => .ok (found :: later))
          cases rest.mapM traceConflicts with
          | error e => rfl
          | ok later => simp [Except.map, bind, Except.bind]

end Findings

/-- The rich point that a conflict is about. -/
def Lowering.place (l : Lowering) (c : Conflict) : PointId := l.richPoint c.point

/-- The warnings are those for the first conflicts at rich points not reported before. -/
theorem Lowering.warnings_eq (l : Lowering) (rich : FlowGraph) (cs : List Conflict) :
    ∀ reported : List PointId, l.warnings rich reported cs =
      ((firsts l.place cs).filter (l.place · ∉ reported)).map (l.warning rich) := by
  induction cs with
  | nil => exact fun _ => rfl
  | cons c rest ih =>
      intro reported
      show (if l.place c ∈ reported then _ else _) = _
      by_cases hc : l.place c ∈ reported
      · rw [if_pos hc, ih, filter_firsts_of_seen hc]
      · rw [if_neg hc, ih, filter_firsts_of_not_seen hc fun _ => List.mem_cons, List.map_cons]
        rfl

namespace FlowGraph

/-- **What a check is.** It lowers the graph, replays the traces that the budget leaves, and of all
conflicts reports the first at each rich point. -/
theorem check_eq (registry : Registry) (settings : Settings) (rich : FlowGraph) :
    rich.check registry settings = do
      let l ← rich.lower registry settings.paths.maxPathDepth.toNat
      let limit := settings.trace.repeatLimit.toNat
      let budget := settings.trace.maxTraces.map UInt64.toNat
      let found ← (l.graph.traces limit budget).mapM traceConflicts
      return {
        warnings := (firsts l.place found.flatten).map (l.warning rich)
        stats := {
          richPoints := rich.pointCount
          primitivePoints := l.graph.pointCount
          primitiveTransitions := l.graph.edgeCount
          traces := (l.graph.traces limit budget).length
          traceBudgetExhausted :=
            decide ((l.graph.traces limit budget).length < (l.graph.allTraces limit).length)
          conflicts := found.flatten.length } } := by
  rw [check]
  cases rich.lower registry settings.paths.maxPathDepth.toNat with
  | error e => rfl
  | ok l =>
      show (l.graph.forEachTrace _ _ _ _ >>= fun result => _) = _
      rw [forEachTrace_eq, ← traces_eq, Findings.foldlM_addTrace]
      cases hfound : (l.graph.traces settings.trace.repeatLimit.toNat
          (settings.trace.maxTraces.map UInt64.toNat)).mapM traceConflicts with
      | error e => simp [bind, Except.bind, Except.map, hfound]
      | ok found =>
          have hwarnings : l.warnings rich [] (found.flatten.foldl Findings.add {}).first =
              (firsts l.place found.flatten).map (l.warning rich) := by
            have hall : ∀ (key : Conflict → PointId) (cs : List Conflict),
                cs.filter (key · ∉ []) = cs := by simp
            have hfine : ∀ a b : Conflict, a.point = b.point → l.place a = l.place b :=
              fun a b h => congrArg l.richPoint h
            rw [Findings.foldl_add, Lowering.warnings_eq, List.map_nil, List.nil_append, hall, hall,
              firsts_firsts hfine]
          have htotal : (found.flatten.foldl Findings.add {}).total = found.flatten.length := by
            rw [Findings.foldl_add]
            exact Nat.zero_add _
          simp [bind, Except.bind, Except.map, pure, Except.pure, hfound, hwarnings, htotal]

/-- What a check that succeeds went through. -/
theorem exists_of_check_eq_ok {registry : Registry} {settings : Settings} {rich : FlowGraph}
    {report : CheckReport} (h : rich.check registry settings = .ok report) :
    ∃ l found, rich.lower registry settings.paths.maxPathDepth.toNat = .ok l ∧
      (l.graph.traces settings.trace.repeatLimit.toNat
        (settings.trace.maxTraces.map UInt64.toNat)).mapM traceConflicts = .ok found ∧
      report.stats.conflicts = found.flatten.length ∧
      report.warnings = (firsts l.place found.flatten).map (l.warning rich) := by
  rw [check_eq] at h
  cases hlower : rich.lower registry settings.paths.maxPathDepth.toNat with
  | error e =>
      rw [hlower] at h
      cases h
  | ok l =>
      rw [hlower] at h
      cases hfound : (l.graph.traces settings.trace.repeatLimit.toNat
          (settings.trace.maxTraces.map UInt64.toNat)).mapM traceConflicts with
      | error e => simp [bind, Except.bind, hfound] at h
      | ok found =>
          simp only [bind, Except.bind, hfound, pure, Except.pure] at h
          obtain rfl := Except.ok.inj h
          exact ⟨l, found, rfl, hfound, rfl, rfl⟩

end FlowGraph

/-! ## Conflicts and the rich points that they are reported at -/

theorem exists_mem_of_mapM_eq_ok {α β ε : Type} {f : α → Except ε β} {xs : List α} :
    ∀ {ys : List β}, xs.mapM f = .ok ys → ∀ y ∈ ys, ∃ x ∈ xs, f x = .ok y := by
  induction xs with
  | nil =>
      intro ys h y hy
      cases h
      cases hy
  | cons x rest ih =>
      intro ys h y hy
      rw [List.mapM_cons] at h
      cases hx : f x with
      | error e => simp [bind, Except.bind, hx] at h
      | ok z =>
          cases hrest : rest.mapM f with
          | error e => simp [bind, Except.bind, hx, hrest] at h
          | ok zs =>
              simp only [bind, Except.bind, hx, hrest, pure, Except.pure] at h
              obtain rfl := Except.ok.inj h
              rcases List.mem_cons.mp hy with rfl | hy
              · exact ⟨x, List.mem_cons_self, hx⟩
              · obtain ⟨x', hx', hfx⟩ := ih hrest y hy
                exact ⟨x', List.mem_cons_of_mem _ hx', hfx⟩

theorem Ledger.point_of_step {l l' : Ledger} {t : Transition} {c : Conflict}
    (h : l.step t = (.ok (some c), l')) : c.point = t.target := by
  obtain ⟨point, op⟩ := t
  cases op with
  | noop | ret | assign | call => cases h
  | move source target step =>
      have hmove : (l.move source target step point).1 = some c :=
        Except.ok.inj (congrArg Prod.fst h)
      unfold Ledger.move at hmove
      split at hmove
      · cases hmove
      · dsimp only at hmove
        split at hmove
        · cases hmove
          rfl
        · cases hmove

/-- A conflict is about the target of a transition of the trace. -/
theorem Ledger.exists_target_of_mem_conflicts {trace : Trace} {c : Conflict} :
    ∀ {l : Ledger} {cs : List Conflict}, l.conflicts trace = .ok cs → c ∈ cs →
      ∃ t ∈ trace, c.point = t.target := by
  induction trace with
  | nil =>
      intro l cs h hc
      cases h
      cases hc
  | cons t rest ih =>
      intro l cs h hc
      obtain ⟨found, l', later, hstep, hlater, rfl⟩ := exists_of_conflicts_cons h
      rcases List.mem_append.mp hc with hc | hc
      · obtain rfl := Option.mem_toList.mp hc
        exact ⟨t, List.mem_cons_self, point_of_step hstep⟩
      · obtain ⟨u, hu, hpoint⟩ := ih hlater hc
        exact ⟨u, List.mem_cons_of_mem _ hu, hpoint⟩

/-- Every conflict that a check meets is about a point that a rich point stands behind. -/
theorem FlowGraph.exists_origin_of_conflict {registry : Registry} {depth limit : Nat}
    {budget : Option Nat} {rich : FlowGraph} {l : Lowering} {found : List (List Conflict)}
    (hl : rich.lower registry depth = .ok l)
    (hfound : (l.graph.traces limit budget).mapM traceConflicts = .ok found) {c : Conflict}
    (hc : c ∈ found.flatten) : ∃ p, l.origin? c.point = some p := by
  obtain ⟨s, drawn, hspun, rfl⟩ := exists_spun hl
  obtain ⟨cs, hcs, hmem⟩ := List.mem_flatten.mp hc
  obtain ⟨trace, htrace, hconflicts⟩ := exists_mem_of_mapM_eq_ok hfound cs hcs
  rw [traces_eq] at htrace
  obtain ⟨t, ht, hpoint⟩ := Ledger.exists_target_of_mem_conflicts hconflicts hmem
  obtain ⟨q, hq⟩ := mem_successors_of_mem_allTraces (Walker.mem_of_mem_affordable htrace) t ht
  obtain ⟨st, hst, hstrand⟩ := hspun.woven.traced q t hq
  rw [hpoint]
  exact ⟨st.edge.target, (hspun.woven.holds st hst).origins t hstrand⟩

/-- The warning stands for the conflict: it names the rich point behind the conflict with its span,
the region that is grown, and the region that the slice goes back to unless that is unknown. -/
structure Lowering.Reports (l : Lowering) (rich : FlowGraph) (c : Conflict) (w : Warning) :
    Prop where
  point : w.point = (l.origin? c.point).getD c.point
  span : w.span = rich.reference? w.point
  followed : ∀ cell, c.origin = .value cell → w.origin = l.selector? cell
  unknown : ∀ number, c.origin = .fresh number → w.origin = none
  value : w.value = l.selector? c.source

theorem Lowering.reports_warning (l : Lowering) (rich : FlowGraph) (c : Conflict) :
    l.Reports rich c (l.warning rich c) where
  point := rfl
  span := rfl
  followed cell h := by simp [warning, h]
  unknown number h := by simp [warning, h]
  value := rfl

/-- **The warnings are the first conflict of each rich point.** If a check succeeds, all traces that
it goes through can be replayed. The statistics count the conflicts of all of them. The point of
each conflict has a rich point behind it, and the warnings stand for the conflicts that come first
at their rich point, in order. So no two warnings are about the same point, and every rich point
with a conflict has its warning. -/
theorem warnings_first_conflict_per_point {registry : Registry} {settings : Settings}
    {rich : FlowGraph} {report : CheckReport} (h : rich.check registry settings = .ok report) :
    ∃ l found, rich.lower registry settings.paths.maxPathDepth.toNat = .ok l ∧
      (l.graph.traces settings.trace.repeatLimit.toNat
        (settings.trace.maxTraces.map UInt64.toNat)).mapM traceConflicts = .ok found ∧
      report.stats.conflicts = found.flatten.length ∧
      List.Forall₂ (l.Reports rich)
        (firsts (fun c => (l.origin? c.point).getD c.point) found.flatten) report.warnings ∧
      (report.warnings.map Warning.point).Nodup ∧
      ∀ c ∈ found.flatten, ∃ p, l.origin? c.point = some p ∧
        ∃ w ∈ report.warnings, w.point = p := by
  obtain ⟨l, found, hlower, hfound, hcount, hwarnings⟩ := FlowGraph.exists_of_check_eq_ok h
  refine ⟨l, found, hlower, hfound, hcount, ?_, ?_, fun c hc => ?_⟩
  · rw [hwarnings]
    exact List.forall₂_map_right_iff.mpr
      (List.forall₂_same.mpr fun c _ => l.reports_warning rich c)
  · rw [hwarnings, List.map_map]
    exact List.pairwise_map.mpr (firsts_pairwise _ _)
  · obtain ⟨p, hp⟩ := FlowGraph.exists_origin_of_conflict hlower hfound hc
    obtain ⟨b, hb, hbc⟩ := exists_mem_firsts l.place hc
    have hplace : l.place c = p := by
      show (l.origin? c.point).getD c.point = p
      rw [hp]
      rfl
    rw [hwarnings]
    exact ⟨p, hp, l.warning rich b, List.mem_map_of_mem hb, hbc.trans hplace⟩

/-- Two fields of the value 0 are read one after the other, so that the value has two leaves and
every growth of it becomes a chain of two moves. -/
def FlowGraph.readFields (g : FlowGraph) (p q r : PointId) : FlowGraph :=
  (g.insert p q (.assign ⟨.tracked 0, ["a"]⟩ (.whole (.tracked 8)))).insert q r
    (.assign ⟨.tracked 0, ["b"]⟩ (.whole (.tracked 9)))

/-- A base with two fields is grown, two ways lead on, and where they meet it is grown once more. -/
def FlowGraph.sharedBase : FlowGraph :=
  let grow (target : Nat) : Operation :=
    .call ⟨1⟩ [.of (.whole (.tracked 0))] [.tracked target]
  let grown := FlowGraph.insert ⟨.root, 6, ∅, ∅⟩ ⟨0⟩ ⟨1⟩ (grow 1)
  let branched := (grown.insert ⟨1⟩ ⟨2⟩ .noop).insert ⟨1⟩ ⟨2⟩
    (.assign (.whole (.tracked 1)) (.whole (.tracked 3)))
  (branched.insert ⟨2⟩ ⟨3⟩ (grow 2)).readFields ⟨3⟩ ⟨4⟩ ⟨5⟩

/-- Both ways meet a conflict for each field, at two primitive points of the rich point 3, and one
warning is left of the four conflicts. -/
theorem sharedBase_warned_once :
    ∃ report l found, FlowGraph.sharedBase.check .builtin default = .ok report ∧
      FlowGraph.sharedBase.lower .builtin 16 = .ok l ∧ report.stats.conflicts = 4 ∧
      List.map (fun c : Conflict => (c.point, l.origin? c.point)) found =
        [(⟨6⟩, some ⟨3⟩), (⟨5⟩, some ⟨3⟩), (⟨6⟩, some ⟨3⟩), (⟨5⟩, some ⟨3⟩)] ∧
      report.warnings =
        [⟨⟨3⟩, none, some ⟨.tracked 0, ["a"]⟩, some ⟨.tracked 0, ["a"]⟩⟩] ∧
      List.Forall₂ (l.Reports .sharedBase)
        (firsts (fun c => (l.origin? c.point).getD c.point) found) report.warnings := by
  have hcheck : FlowGraph.sharedBase.check .builtin default =
      .ok ⟨[⟨⟨3⟩, none, some ⟨.tracked 0, ["a"]⟩, some ⟨.tracked 0, ["a"]⟩⟩],
        ⟨6, 9, 9, 2, false, 4⟩⟩ := by cbv
  have hpoints : (FlowGraph.sharedBase.lower .builtin 16 >>= fun l =>
      (l.graph.traces 2 none).mapM traceConflicts >>= fun found =>
        .ok (found.flatten.map fun c => (c.point, l.origin? c.point))) =
      .ok [(⟨6⟩, some ⟨3⟩), (⟨5⟩, some ⟨3⟩), (⟨6⟩, some ⟨3⟩), (⟨5⟩, some ⟨3⟩)] := by cbv
  obtain ⟨l, found, hlower, hfound, hcount, hwarnings, -, -⟩ :=
    warnings_first_conflict_per_point hcheck
  have hlower : FlowGraph.sharedBase.lower .builtin 16 = .ok l := hlower
  have hfound : (l.graph.traces 2 none).mapM traceConflicts = .ok found := hfound
  rw [hlower] at hpoints
  change ((l.graph.traces 2 none).mapM traceConflicts >>= _) = _ at hpoints
  rw [hfound] at hpoints
  exact ⟨_, l, found.flatten, hcheck, hlower, rfl, Except.ok.inj hpoints, rfl, hwarnings⟩

end SliceLineage
