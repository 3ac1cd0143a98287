import SliceLineage.Flow.Trace

/-!
# A walk visits exactly the bounded traces

A path is given by its choices: at each point, the position of an edge among those that leave it.
Parallel edges are different choices, also if they do the same.

* `FlowGraph.IsTrace`: the choices lead along a maximal path under a limit.
* `FlowGraph.completions`: lists, by recursion on what a path may still enter, how it can be
  continued to a maximal one. `FlowGraph.mem_completions_iff` and `FlowGraph.completions_pairwise`
  say that nothing is missing, and that the list is in lexicographic order without repetition.
* `Walker.pending`: the traces that a walk has still to find. A step finds the first of them or none
  (`Walker.pending_entered`, `Walker.pending_left`), so a run visits all (`Walker.run_eq_visitAll`).
* `forEachTrace_visits_exactly_traces`: the result, with budget, statistics and counts.
-/

namespace SliceLineage

/-- The point where a path from `p` ends. -/
def Trace.last (p : PointId) : Trace → PointId
  | [] => p
  | t :: rest => Trace.last t.target rest

namespace FlowGraph

variable (g : FlowGraph) (limit : Nat)

/-- The path that choices lead along from a point, if there are such edges. -/
def follow? : PointId → List Nat → Option Trace
  | _, [] => some []
  | p, i :: choices =>
      match (g.successors p)[i]? with
      | none => none
      | some t => (follow? t.target choices).map (t :: ·)

/-- The choices lead from the root along this trace: it enters no point more often than the limit,
and no edge can be added to it. -/
structure IsTrace (choices : List Nat) (trace : Trace) : Prop where
  follows : g.follow? g.root choices = some trace
  bounded : ∀ p, trace.entries p ≤ limit
  maximal : ∀ t ∈ g.successors (trace.last g.root), limit ≤ trace.entries t.target

/-- The continuations of a path to `p` that make it a trace, with their choices. -/
def completions (path : Trace) (p : PointId) : List (List Nat × Trace) :=
  if (g.admitted limit path p).isEmpty then [([], [])]
  else (g.successors p).zipIdx.attach.flatMap fun e =>
    if _h : path.entries e.val.1.target < limit then
      (completions (e.val.1 :: path) e.val.1.target).map fun c =>
        (e.val.2 :: c.1, e.val.1 :: c.2)
    else []
termination_by path.room limit g.entryPoints
decreasing_by
  refine room_lt_of_mem_admitted (p := p) (List.mem_filter.mpr ⟨?_, decide_eq_true _h⟩)
  exact List.fst_mem_of_mem_zipIdx e.property

variable {g limit}

theorem completions_eq (path : Trace) (p : PointId) :
    g.completions limit path p =
      if (g.admitted limit path p).isEmpty then [([], [])]
      else (g.successors p).zipIdx.flatMap fun e =>
        if path.entries e.1.target < limit then
          (g.completions limit (e.1 :: path) e.1.target).map fun c => (e.2 :: c.1, e.1 :: c.2)
        else [] := by
  rw [completions]
  congr 1
  rw [List.flatMap_def, List.flatMap_def]
  congr 1
  exact List.attach_map_val (f := fun e : Transition × Nat =>
    if path.entries e.1.target < limit then
      (g.completions limit (e.1 :: path) e.1.target).map fun c => (e.2 :: c.1, e.1 :: c.2)
    else [])

theorem admitted_eq_nil_iff {path : Trace} {p : PointId} :
    g.admitted limit path p = [] ↔ ∀ t ∈ g.successors p, limit ≤ path.entries t.target := by
  simp [admitted, List.filter_eq_nil_iff]

theorem nil_mem_completions_iff {path : Trace} {p : PointId} {trace : Trace} :
    ([], trace) ∈ g.completions limit path p ↔ g.admitted limit path p = [] ∧ trace = [] := by
  rw [completions_eq]
  split
  · rename_i h
    simp_all
  · rename_i h
    simp only [List.isEmpty_iff] at h
    simp only [List.mem_flatMap, h, false_and, iff_false]
    rintro ⟨e, -, he⟩
    split at he <;> simp at he

theorem cons_mem_completions_iff {path : Trace} {p : PointId} {i : Nat} {choices : List Nat}
    {trace : Trace} :
    (i :: choices, trace) ∈ g.completions limit path p ↔
      ∃ t rest, (g.successors p)[i]? = some t ∧ path.entries t.target < limit ∧
        trace = t :: rest ∧ (choices, rest) ∈ g.completions limit (t :: path) t.target := by
  rw [completions_eq]
  constructor
  · intro h
    split at h
    · simp at h
    · obtain ⟨⟨t, j⟩, he, h⟩ := List.mem_flatMap.mp h
      split at h
      · rename_i hlt
        obtain ⟨⟨cs, rest⟩, hc, h⟩ := List.mem_map.mp h
        simp only [Prod.mk.injEq, List.cons.injEq] at h
        obtain ⟨⟨rfl, rfl⟩, rfl⟩ := h
        exact ⟨t, rest, List.mk_mem_zipIdx_iff_getElem?.mp he, hlt, rfl, hc⟩
      · cases h
  · rintro ⟨t, rest, ht, hlt, rfl, hc⟩
    have hne : (g.admitted limit path p).isEmpty = false := by
      rw [List.isEmpty_eq_false_iff_exists_mem]
      exact ⟨t, List.mem_filter.mpr ⟨List.mem_of_getElem? ht, decide_eq_true hlt⟩⟩
    rw [hne]
    refine List.mem_flatMap.mpr ⟨(t, i), List.mk_mem_zipIdx_iff_getElem?.mpr ht, ?_⟩
    rw [if_pos hlt]
    exact List.mem_map.mpr ⟨(choices, rest), hc, rfl⟩

/-- The choices continue a path to `p` along `trace` to a trace. -/
structure Completes (g : FlowGraph) (limit : Nat) (path : Trace) (p : PointId)
    (choices : List Nat) (trace : Trace) : Prop where
  follows : g.follow? p choices = some trace
  bounded : ∀ t ∈ trace, path.entries t.target + trace.entries t.target ≤ limit
  maximal : ∀ t ∈ g.successors (trace.last p),
    limit ≤ path.entries t.target + trace.entries t.target

theorem completes_nil_iff {path : Trace} {p : PointId} {trace : Trace} :
    g.Completes limit path p [] trace ↔ g.admitted limit path p = [] ∧ trace = [] := by
  rw [admitted_eq_nil_iff]
  constructor
  · rintro ⟨hf, -, hm⟩
    obtain rfl : [] = trace := Option.some.inj hf
    exact ⟨by simpa [Trace.last, Trace.entries] using hm, rfl⟩
  · rintro ⟨hm, rfl⟩
    exact ⟨rfl, by simp, by simpa [Trace.last, Trace.entries] using hm⟩

theorem follow?_cons_eq_some {p : PointId} {i : Nat} {choices : List Nat} {trace : Trace} :
    g.follow? p (i :: choices) = some trace ↔
      ∃ t rest, (g.successors p)[i]? = some t ∧ g.follow? t.target choices = some rest ∧
        trace = t :: rest := by
  rw [follow?]
  cases (g.successors p)[i]? with
  | none => simp
  | some t =>
      simp only [Option.map_eq_some_iff, Option.some.injEq]
      constructor
      · rintro ⟨rest, hrest, rfl⟩
        exact ⟨t, rest, rfl, hrest, rfl⟩
      · rintro ⟨_, rest, rfl, hrest, rfl⟩
        exact ⟨rest, hrest, rfl⟩

/-- A path enters the target of each of its transitions. -/
theorem entries_pos {trace : Trace} {t : Transition} (h : t ∈ trace) :
    0 < trace.entries t.target :=
  List.countP_pos_iff.mpr ⟨t, h, by simp⟩

/-- The first transition of a continuation uses up one entry of its target. -/
theorem bounded_cons_iff {path : Trace} {t : Transition} {rest : Trace} :
    (∀ u ∈ t :: rest, path.entries u.target + Trace.entries (t :: rest) u.target ≤ limit) ↔
      path.entries t.target < limit ∧
        ∀ u ∈ rest, Trace.entries (t :: path) u.target + rest.entries u.target ≤ limit := by
  simp only [Trace.entries_cons]
  constructor
  · intro h
    refine ⟨?_, fun u hu => ?_⟩
    · have := h t List.mem_cons_self
      simp only [if_true] at this
      omega
    · have := h u (List.mem_cons_of_mem _ hu)
      omega
  · rintro ⟨hlt, h⟩ u hu
    rcases List.mem_cons.mp hu with rfl | hu
    · -- either the point is entered again, which bounds all its entries, or it is not
      by_cases hz : rest.entries u.target = 0
      · simp only [hz, if_true]
        omega
      · obtain ⟨v, hv, hvu⟩ := List.countP_pos_iff.mp (Nat.pos_of_ne_zero hz)
        have := h v hv
        rw [beq_iff_eq.mp hvu] at this
        omega
    · have := h u hu
      omega

theorem completes_cons_iff {path : Trace} {p : PointId} {i : Nat} {choices : List Nat}
    {trace : Trace} :
    g.Completes limit path p (i :: choices) trace ↔
      ∃ t rest, (g.successors p)[i]? = some t ∧ path.entries t.target < limit ∧
        trace = t :: rest ∧ g.Completes limit (t :: path) t.target choices rest := by
  have hmax : ∀ (t u : Transition) (rest : Trace),
      path.entries u.target + Trace.entries (t :: rest) u.target =
        Trace.entries (t :: path) u.target + rest.entries u.target := by
    intro t u rest
    simp only [Trace.entries_cons]
    omega
  constructor
  · rintro ⟨hf, hb, hm⟩
    obtain ⟨t, rest, ht, hrest, rfl⟩ := follow?_cons_eq_some.mp hf
    obtain ⟨hlt, hb⟩ := bounded_cons_iff.mp hb
    refine ⟨t, rest, ht, hlt, rfl, hrest, hb, fun u hu => ?_⟩
    rw [← hmax]
    exact hm u hu
  · rintro ⟨t, rest, ht, hlt, rfl, hf, hb, hm⟩
    refine ⟨follow?_cons_eq_some.mpr ⟨t, rest, ht, hf, rfl⟩, bounded_cons_iff.mpr ⟨hlt, hb⟩,
      fun u hu => ?_⟩
    rw [hmax]
    exact hm u hu

/-- **No continuation is missing, and none is too much.** -/
theorem mem_completions_iff {choices : List Nat} :
    ∀ {path : Trace} {p : PointId} {trace : Trace},
      (choices, trace) ∈ g.completions limit path p ↔ g.Completes limit path p choices trace := by
  induction choices with
  | nil =>
      intro path p trace
      rw [nil_mem_completions_iff, completes_nil_iff]
  | cons i choices ih =>
      intro path p trace
      rw [cons_mem_completions_iff, completes_cons_iff]
      simp only [ih]

theorem completes_root_iff {choices : List Nat} {trace : Trace} :
    g.Completes limit [] g.root choices trace ↔ g.IsTrace limit choices trace := by
  have hzero : ∀ p, Trace.entries [] p = 0 := fun _ => rfl
  constructor
  · rintro ⟨hf, hb, hm⟩
    refine ⟨hf, fun p => ?_, by simpa [hzero] using hm⟩
    by_cases hp : trace.entries p = 0
    · omega
    · obtain ⟨t, ht, htp⟩ := List.countP_pos_iff.mp (Nat.pos_of_ne_zero hp)
      have := hb t ht
      rw [beq_iff_eq.mp htp, hzero] at this
      omega
  · rintro ⟨hf, hb, hm⟩
    refine ⟨hf, fun t _ => ?_, by simpa [hzero] using hm⟩
    rw [hzero, Nat.zero_add]
    exact hb t.target

theorem zipIdx_pairwise {α : Type} (l : List α) : l.zipIdx.Pairwise fun a b => a.2 < b.2 := by
  apply List.pairwise_map.mp
  rw [List.zipIdx_map_snd]
  exact List.pairwise_lt_range'

/-- **The continuations are listed in lexicographic order, each once.** -/
theorem completions_pairwise (g : FlowGraph) (limit : Nat) (path : Trace) (p : PointId) :
    ((g.completions limit path p).map Prod.fst).Pairwise (· < ·) := by
  rw [completions_eq, List.pairwise_map]
  split
  · exact List.pairwise_singleton _ _
  · rw [List.pairwise_flatMap]
    constructor
    · -- after the same first choice, the rest decides
      rintro ⟨t, i⟩ _he
      split
      · rename_i hlt
        have ih := completions_pairwise g limit (t :: path) t.target
        rw [List.pairwise_map] at ih ⊢
        exact ih.imp fun h => List.cons_lt_cons_self.mpr h
      · exact List.Pairwise.nil
    · refine (zipIdx_pairwise _).imp ?_
      rintro ⟨t, i⟩ ⟨u, j⟩ hij a ha b hb
      split at ha
      · obtain ⟨c, -, rfl⟩ := List.mem_map.mp ha
        split at hb
        · obtain ⟨d, -, rfl⟩ := List.mem_map.mp hb
          exact List.cons_lt_cons_iff.mpr (Or.inl hij)
        · cases hb
      · cases ha
termination_by path.room limit g.entryPoints
decreasing_by
  rename_i hlt
  refine room_lt_of_mem_admitted (p := p) (List.mem_filter.mpr ⟨?_, decide_eq_true hlt⟩)
  exact List.fst_mem_of_mem_zipIdx _he

/-- The continuations themselves, by their first transition. -/
theorem map_snd_completions (path : Trace) (p : PointId) :
    (g.completions limit path p).map Prod.snd =
      if (g.admitted limit path p).isEmpty then [[]]
      else (g.admitted limit path p).flatMap fun t =>
        (g.completions limit (t :: path) t.target).map (t :: ·.2) := by
  rw [completions_eq]
  split
  · rfl
  · have hflat : ∀ l : List (Transition × Nat),
        (l.flatMap fun e =>
          if path.entries e.1.target < limit then
            (g.completions limit (e.1 :: path) e.1.target).map fun c => (e.2 :: c.1, e.1 :: c.2)
          else []).map Prod.snd =
        ((l.map Prod.fst).filter fun t => path.entries t.target < limit).flatMap fun t =>
          (g.completions limit (t :: path) t.target).map (t :: ·.2) := by
      intro l
      induction l with
      | nil => rfl
      | cons e l ih =>
          by_cases hlt : path.entries e.1.target < limit
          · simp [hlt, ih, Function.comp_def]
          · simp [hlt, ih]
    rw [hflat, List.zipIdx_map_fst]
    rfl

end FlowGraph

namespace Walker

variable {g : FlowGraph} {limit : Nat} {w w' : Walker}

/-- The traces that a walk finds from stops along a path. -/
def pendingAt (g : FlowGraph) (limit : Nat) : List Stop → Trace → List Trace
  | [], _ => []
  | stop :: outer, path =>
      let left := stop.untried.filter fun t => path.entries t.target < limit
      (if left.isEmpty && !stop.advanced then [path.reverse]
      else left.flatMap fun t =>
        (g.completions limit (t :: path) t.target).map (path.reverse ++ t :: ·.2))
        ++ pendingAt g limit outer path.tail

/-- The traces that a walk has still to find. -/
def pending (g : FlowGraph) (limit : Nat) (w : Walker) : List Trace :=
  pendingAt g limit w.stops w.path

/-- At a new stop all continuations are pending. -/
theorem pendingAt_new (p : PointId) (outer : List Stop) (path : Trace) :
    pendingAt g limit (⟨g.successors p, false⟩ :: outer) path =
      ((g.completions limit path p).map Prod.snd).map (path.reverse ++ ·)
        ++ pendingAt g limit outer path.tail := by
  rw [FlowGraph.map_snd_completions, pendingAt]
  have hleft : (g.successors p).filter (fun t => path.entries t.target < limit) =
      g.admitted limit path p := rfl
  simp only [hleft, Bool.not_false, Bool.and_true]
  congr 1
  split
  · simp
  · simp [List.map_flatMap, Function.comp_def]

/-- After an edge was taken, a stop has only its other edges left. -/
theorem pendingAt_advanced (rest : List Transition) (outer : List Stop) (path : Trace) :
    pendingAt g limit (⟨rest, true⟩ :: outer) path =
      ((rest.filter fun t => path.entries t.target < limit).flatMap fun t =>
        (g.completions limit (t :: path) t.target).map (path.reverse ++ t :: ·.2))
        ++ pendingAt g limit outer path.tail := by
  simp [pendingAt]

theorem pending_finished (hs : w.step g limit = .finished) : w.pending g limit = [] := by
  rcases step_cases g limit w with ⟨hstops, -⟩ | ⟨_, _, _, _, -, -, -, he⟩ | ⟨_, _, -, -, he⟩
  · rw [pending, hstops]
    rfl
  · rw [he] at hs; cases hs
  · rw [he] at hs; cases hs

/-- Going along an edge changes nothing about what is to be found. -/
theorem pending_entered (hw : w.Counted) (hs : w.step g limit = .entered w') :
    w.pending g limit = w'.pending g limit := by
  rcases step_cases g limit w with ⟨-, he⟩ | ⟨stop, outer, t, rest, hstops, -, hf, he⟩ |
    ⟨_, _, -, -, he⟩
  · rw [he] at hs; cases hs
  · rw [he] at hs
    cases hs
    simp only [hw.filter_admits] at hf
    rw [pending, pending, hstops, Walker.enter, pendingAt_new, List.tail_cons, pendingAt_advanced,
      pendingAt]
    simp [hf, Function.comp_def]
  · rw [he] at hs; cases hs

/-- Going back finds the first trace that is pending, or none. -/
theorem pending_left {trace : Option Trace} (hw : w.Counted)
    (hs : w.step g limit = .left trace w') :
    w.pending g limit = trace.toList ++ w'.pending g limit := by
  rcases step_cases g limit w with ⟨-, he⟩ | ⟨_, _, _, _, -, -, -, he⟩ |
    ⟨stop, outer, hstops, hf, he⟩
  · rw [he] at hs; cases hs
  · rw [he] at hs; cases hs
  · rw [he] at hs
    cases hs
    simp only [hw.filter_admits] at hf
    have hleave : (w.leave outer).pending g limit = pendingAt g limit outer w.path.tail := by
      unfold pending leave
      split <;> simp_all
    rw [hleave, pending, hstops, pendingAt]
    cases stop.advanced <;> simp [hf]

/-- Hands a list of traces to a visitor, up to a budget. -/
def visitAll {α ε : Type} (budget : Option Nat) (visit : α → Trace → Except ε α) :
    List Trace → α → TraceStats → Except ε (α × TraceStats)
  | [], acc, stats => .ok (acc, stats)
  | trace :: rest, acc, stats =>
      if budget.any (· ≤ stats.traces) then .ok (acc, { stats with budgetExhausted := true })
      else match visit acc trace with
        | .error e => .error e
        | .ok acc => visitAll budget visit rest acc (stats.add trace)

/-- **A run visits the pending traces in order.** -/
theorem run_eq_visitAll {α ε : Type} (budget : Option Nat) (visit : α → Trace → Except ε α)
    (w : Walker) (hw : w.Counted) (acc : α) (stats : TraceStats) :
    w.run g limit budget visit hw acc stats =
      visitAll budget visit (w.pending g limit) acc stats := by
  rw [run]
  split
  · rename_i hs
    rw [pending_finished hs]
    rfl
  · rename_i w' hs
    rw [pending_entered hw hs]
    exact run_eq_visitAll budget visit w' _ acc stats
  · rename_i w' hs
    rw [pending_left hw hs]
    exact run_eq_visitAll budget visit w' _ acc stats
  · rename_i trace w' hs
    rw [pending_left hw hs]
    simp only [Option.toList_some, List.cons_append, List.nil_append, visitAll]
    split
    · rfl
    · cases visit acc trace with
      | error e => rfl
      | ok acc => exact run_eq_visitAll budget visit w' _ acc _
termination_by w.effort g limit
decreasing_by
  · exact (effort_lt_of_entered hw ‹_›).2
  · exact (effort_lt_of_left hw ‹_›).2
  · exact (effort_lt_of_left hw ‹_›).2

/-- What a budget leaves of a list of traces, when some were visited before. -/
def affordable (budget : Option Nat) (visited : Nat) (traces : List Trace) : List Trace :=
  match budget with
  | none => traces
  | some m => traces.take (m - visited)

theorem mem_of_mem_affordable {budget : Option Nat} {visited : Nat} {traces : List Trace}
    {trace : Trace} (h : trace ∈ affordable budget visited traces) : trace ∈ traces := by
  cases budget with
  | none => exact h
  | some m => exact List.mem_of_mem_take h

theorem affordable_cons {budget : Option Nat} {visited : Nat} (trace : Trace) (rest : List Trace)
    (h : budget.any (· ≤ visited) = false) :
    affordable budget visited (trace :: rest) = trace :: affordable budget (visited + 1) rest := by
  cases budget with
  | none => rfl
  | some m =>
      simp only [Option.any_some, decide_eq_false_iff_not] at h
      obtain ⟨k, hk⟩ : ∃ k, m - visited = k + 1 := ⟨m - visited - 1, by omega⟩
      have hk' : m - (visited + 1) = k := by omega
      simp only [affordable, hk, hk', List.take_succ_cons]

theorem affordable_exhausted {budget : Option Nat} {visited : Nat} (traces : List Trace)
    (h : budget.any (· ≤ visited) = true) : affordable budget visited traces = [] := by
  cases budget with
  | none => cases h
  | some m =>
      have hle : m ≤ visited := of_decide_eq_true h
      simp only [affordable, Nat.sub_eq_zero_of_le hle, List.take_zero]

/-- Visiting traces under a budget is visiting the first of them and noting whether any are left. -/
theorem visitAll_eq {α ε : Type} (budget : Option Nat) (visit : α → Trace → Except ε α)
    (traces : List Trace) :
    ∀ (acc : α) (stats : TraceStats), stats.budgetExhausted = false →
      visitAll budget visit traces acc stats = do
        let result ← (affordable budget stats.traces traces).foldlM visit acc
        return (result, { (affordable budget stats.traces traces).foldl TraceStats.add stats with
          budgetExhausted :=
            decide ((affordable budget stats.traces traces).length < traces.length) }) := by
  induction traces with
  | nil =>
      intro acc stats hb
      have hnil : affordable budget stats.traces [] = [] := by cases budget <;> simp [affordable]
      rw [hnil, visitAll]
      obtain ⟨n, longest, exhausted⟩ := stats
      cases hb
      rfl
  | cons trace rest ih =>
      intro acc stats hb
      rw [visitAll]
      cases hbudget : budget.any (· ≤ stats.traces) with
      | true =>
          rw [affordable_exhausted _ hbudget]
          simp [pure, Except.pure, bind, Except.bind]
      | false =>
          rw [affordable_cons _ _ hbudget, List.foldlM_cons]
          cases visit acc trace with
          | error e => rfl
          | ok acc =>
              have hadd : (stats.add trace).traces = stats.traces + 1 := rfl
              simp only [Bool.false_eq_true, if_false]
              rw [ih acc (stats.add trace) hb, hadd]
              simp [bind, Except.bind]

end Walker

theorem TraceStats.foldl_add (traces : List Trace) :
    ∀ stats : TraceStats, traces.foldl add stats =
      { stats with
        traces := stats.traces + traces.length
        longest := (traces.map List.length).foldl max stats.longest } := by
  induction traces with
  | nil => exact fun _ => rfl
  | cons trace rest ih =>
      intro stats
      rw [List.foldl_cons, ih]
      simp only [add, List.length_cons, List.map_cons, List.foldl_cons, TraceStats.mk.injEq,
        and_true]
      omega

namespace FlowGraph

/-- All traces under a limit, in order. -/
def allTraces (g : FlowGraph) (limit : Nat) : List Trace :=
  (g.completions limit [] g.root).map Prod.snd

theorem pending_start (g : FlowGraph) (limit : Nat) :
    (Walker.start g).pending g limit = g.allTraces limit := by
  rw [Walker.pending, Walker.start, Walker.pendingAt_new]
  simp [Walker.pendingAt, allTraces]

/-- Visiting each trace is a fold over those that the budget leaves. -/
theorem forEachTrace_eq {α ε : Type} (g : FlowGraph) (limit : Nat) (budget : Option Nat)
    (visit : α → Trace → Except ε α) (init : α) :
    g.forEachTrace limit budget visit init = do
      let result ← (Walker.affordable budget 0 (g.allTraces limit)).foldlM visit init
      return (result, {
        traces := (Walker.affordable budget 0 (g.allTraces limit)).length
        longest := ((Walker.affordable budget 0 (g.allTraces limit)).map List.length).max?.getD 0
        budgetExhausted := decide ((Walker.affordable budget 0 (g.allTraces limit)).length <
          (g.allTraces limit).length) }) := by
  rw [forEachTrace, Walker.run_eq_visitAll, pending_start, Walker.visitAll_eq _ _ _ _ _ rfl,
    TraceStats.foldl_add]
  simp only [Nat.zero_add, List.foldl_max, Nat.zero_max]

/-- The collected traces are those that the budget leaves. -/
theorem traces_eq (g : FlowGraph) (limit : Nat) (budget : Option Nat) :
    g.traces limit budget = Walker.affordable budget 0 (g.allTraces limit) := by
  have hcollect : ∀ (traces found : List Trace),
      traces.foldlM (fun found t => (.ok (t :: found) : Except Empty (List Trace))) found =
        .ok (traces.reverse ++ found) := by
    intro traces
    induction traces with
    | nil => exact fun _ => rfl
    | cons t rest ih =>
        intro found
        rw [List.foldlM_cons]
        show rest.foldlM _ (t :: found) = _
        rw [ih]
        simp
  unfold traces
  simp only [forEachTrace_eq, hcollect]
  simp [bind, Except.bind, pure, Except.pure]

end FlowGraph

namespace Walker

/-- The states that a walk passes through. -/
inductive Reached (g : FlowGraph) (limit : Nat) : Walker → Prop
  | start : Reached g limit (.start g)
  | entered {w w' : Walker} (hw : Reached g limit w) (hs : w.step g limit = .entered w') :
      Reached g limit w'
  | left {w w' : Walker} {trace : Option Trace} (hw : Reached g limit w)
      (hs : w.step g limit = .left trace w') : Reached g limit w'

variable {g : FlowGraph} {limit : Nat} {w : Walker}

theorem Reached.counted (h : Reached g limit w) : w.Counted := by
  induction h with
  | start => exact counted_start g
  | entered _ hs ih => exact (effort_lt_of_entered ih hs).1
  | left _ hs ih => exact (effort_lt_of_left ih hs).1

/-- Every walk comes to its end. -/
theorem reached_finishes (w : Walker) (h : Reached g limit w) :
    ∃ w', Reached g limit w' ∧ w'.step g limit = .finished := by
  match hs : w.step g limit with
  | .finished => exact ⟨w, h, hs⟩
  | .entered w' => exact reached_finishes w' (h.entered hs)
  | .left _ w' => exact reached_finishes w' (h.left hs)
termination_by w.effort g limit
decreasing_by
  · exact (effort_lt_of_entered h.counted hs).2
  · exact (effort_lt_of_left h.counted hs).2

end Walker

/-- **A walk visits exactly the bounded traces.** There is one list of them, in lexicographic order
of the choices and without repetition. Under a budget the first of them are visited, in order, until
a visit fails; the statistics say how many there were, how long the longest was and whether any are
left. The walk ends, and on its way the counts are those of the path, so that going back never
takes an entry from a point that has none. -/
theorem forEachTrace_visits_exactly_traces (g : FlowGraph) (limit : Nat) :
    ∃ all : List (List Nat × Trace),
      (all.map Prod.fst).Pairwise (· < ·) ∧
      (∀ choices trace, (choices, trace) ∈ all ↔ g.IsTrace limit choices trace) ∧
      (∀ budget : Option Nat, ∃ visited : List Trace,
        visited = (budget.elim all (all.take ·)).map Prod.snd ∧
        g.traces limit budget = visited ∧
        ∀ (α ε : Type) (visit : α → Trace → Except ε α) (init : α),
          (g.forEachTrace limit budget visit init = do
            let result ← visited.foldlM visit init
            return (result, {
              traces := budget.elim all.length (min · all.length)
              longest := (visited.map List.length).max?.getD 0
              budgetExhausted := budget.any (· < all.length) })) ∧
          ∀ before trace later a e, visited = before ++ trace :: later →
            before.foldlM visit init = .ok a → visit a trace = .error e →
            g.forEachTrace limit budget visit init = .error e) ∧
      (∃ w, Walker.Reached g limit w ∧ w.step g limit = .finished) ∧
      ∀ w, Walker.Reached g limit w →
        (∀ p, w.visits.count p = w.path.entries p) ∧
        ∀ t path, w.path = t :: path → 0 < w.visits.count t.target := by
  refine ⟨g.completions limit [] g.root, g.completions_pairwise limit [] g.root, ?_, ?_,
    Walker.reached_finishes _ .start, ?_⟩
  · intro choices trace
    rw [FlowGraph.mem_completions_iff, FlowGraph.completes_root_iff]
  · intro budget
    have hvisited : Walker.affordable budget 0 (g.allTraces limit) =
        (budget.elim (g.completions limit [] g.root)
          ((g.completions limit [] g.root).take ·)).map Prod.snd := by
      cases budget <;> simp [Walker.affordable, FlowGraph.allTraces]
    refine ⟨_, rfl, by rw [FlowGraph.traces_eq, hvisited], fun α ε visit init => ⟨?_, ?_⟩⟩
    · rw [FlowGraph.forEachTrace_eq, hvisited]
      cases budget with
      | none => simp [FlowGraph.allTraces]
      | some m =>
          have hmore : ∀ n, (min m n < n) = (m < n) := by
            intro n
            rw [eq_iff_iff]
            omega
          simp [FlowGraph.allTraces, hmore]
    · intro before trace later a e hsplit ha he
      rw [FlowGraph.forEachTrace_eq, hvisited, hsplit, List.foldlM_append, ha]
      simp [he, bind, Except.bind]
  · intro w hw
    refine ⟨hw.counted, fun t path hpath => ?_⟩
    rw [hw.counted, hpath]
    exact FlowGraph.entries_pos List.mem_cons_self

end SliceLineage
