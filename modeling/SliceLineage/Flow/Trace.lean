import SliceLineage.Flow.Reachable

/-!
# Bounded traces

A trace is a path from the root that enters no point more often than a limit and that cannot be
extended under that limit. The start at the root is not an entry.

* `Walker`: goes through the traces, depth first and edges in order. It keeps the path to where it
  is, how often that path has entered each point, and what is left to try at each of its points.
* `Walker.step`: takes the next edge, or goes back by one. Every step uses up some of the effort
  that is left (`Walker.effort_lt_of_entered`, `Walker.effort_lt_of_left`), so a walk ends.
* `FlowGraph.forEachTrace`: hands the traces to a visitor, up to a budget.
-/

namespace SliceLineage

/-- A path through a graph. -/
abbrev Trace := List Transition

/-- How often a path enters a point. -/
def Trace.entries (path : Trace) (p : PointId) : Nat := path.countP (·.target == p)

theorem Trace.entries_cons (t : Transition) (path : Trace) (p : PointId) :
    Trace.entries (t :: path) p = path.entries p + if t.target = p then 1 else 0 := by
  simp [entries, List.countP_cons]

/-- How many entries into the given points a path leaves under a limit. -/
def Trace.room (path : Trace) (limit : Nat) : List PointId → Nat
  | [] => 0
  | p :: points => limit - path.entries p + path.room limit points

theorem Trace.room_cons_le (t : Transition) (path : Trace) (limit : Nat) (points : List PointId) :
    Trace.room (t :: path) limit points ≤ path.room limit points := by
  induction points with
  | nil => simp [room]
  | cons q points ih =>
      simp only [room, entries_cons]
      split <;> omega

theorem Trace.room_cons_lt {t : Transition} {path : Trace} {limit : Nat} {points : List PointId}
    (hmem : t.target ∈ points) (hlt : path.entries t.target < limit) :
    Trace.room (t :: path) limit points < path.room limit points := by
  induction points with
  | nil => simp at hmem
  | cons q points ih =>
      have hle := room_cons_le t path limit points
      simp only [room, entries_cons]
      rcases List.mem_cons.mp hmem with rfl | hmem
      · simp only [if_true]
        omega
      · have := ih hmem
        split <;> omega

/-- How often the current path has entered each point. -/
structure Visits where
  counts : Std.TreeMap PointId Nat

namespace Visits

/-- No point was entered. -/
def none : Visits := ⟨∅⟩

def count (v : Visits) (p : PointId) : Nat := v.counts.getD p 0

/-- One entry more. -/
def enter (v : Visits) (p : PointId) : Visits := ⟨v.counts.insert p (v.count p + 1)⟩

/-- One entry less. -/
def leave (v : Visits) (p : PointId) : Visits := ⟨v.counts.insert p (v.count p - 1)⟩

theorem count_none (p : PointId) : none.count p = 0 := by
  simp [count, none]

theorem count_enter (v : Visits) (p q : PointId) :
    (v.enter p).count q = v.count q + if p = q then 1 else 0 := by
  by_cases h : p = q
  · subst h; simp [count, enter]
  · simp [count, enter, Std.TreeMap.getD_insert, h]

theorem count_leave (v : Visits) (p q : PointId) :
    (v.leave p).count q = v.count q - if p = q then 1 else 0 := by
  by_cases h : p = q
  · subst h; simp [count, leave]
  · simp [count, leave, Std.TreeMap.getD_insert, h]

end Visits

namespace FlowGraph

/-- The transitions from a point that a path may still be extended by. -/
def admitted (g : FlowGraph) (limit : Nat) (path : Trace) (p : PointId) : List Transition :=
  (g.successors p).filter fun t => path.entries t.target < limit

/-- The points that edges lead to. -/
def entryPoints (g : FlowGraph) : List PointId := g.edges.map fun edge => edge.2.target

theorem room_lt_of_mem_admitted {g : FlowGraph} {limit : Nat} {path : Trace} {p : PointId}
    {t : Transition} (h : t ∈ g.admitted limit path p) :
    Trace.room (t :: path) limit g.entryPoints < path.room limit g.entryPoints := by
  obtain ⟨ht, hlt⟩ := List.mem_filter.mp h
  exact Trace.room_cons_lt (List.mem_map.mpr ⟨(p, t), mem_edges.mpr ht, rfl⟩)
    (of_decide_eq_true hlt)

/-- The number of steps that it takes to try everything from a point on and to go back from it. -/
def effort (g : FlowGraph) (limit : Nat) (path : Trace) (p : PointId) : Nat :=
  1 + ((g.admitted limit path p).attach.map fun t =>
    1 + effort g limit (t.val :: path) t.val.target).foldr (· + ·) 0
termination_by path.room limit g.entryPoints
decreasing_by exact room_lt_of_mem_admitted t.property

theorem effort_eq (g : FlowGraph) (limit : Nat) (path : Trace) (p : PointId) :
    g.effort limit path p =
      1 + ((g.admitted limit path p).map fun t =>
        1 + g.effort limit (t :: path) t.target).foldr (· + ·) 0 := by
  rw [effort]
  exact congrArg (fun costs => 1 + costs.foldr (· + ·) 0)
    (List.attach_map_val (f := fun t => 1 + g.effort limit (t :: path) t.target))

end FlowGraph

/-- What is left to do at a point of the path (`Frame`). -/
structure Stop where
  /-- The edges that were not looked at yet. -/
  untried : List Transition
  /-- Some edge was taken. -/
  advanced : Bool

/-- A walk through a graph (`TraceEnumerator`). -/
structure Walker where
  visits : Visits
  /-- The path from the root, newest first. -/
  path : Trace
  /-- The points of the path, innermost first; the last one is the root. -/
  stops : List Stop

namespace Walker

/-- A walk that is about to begin. -/
def start (g : FlowGraph) : Walker := ⟨.none, [], [⟨g.successors g.root, false⟩]⟩

/-- The target of the transition may be entered once more. -/
def admits (w : Walker) (limit : Nat) (t : Transition) : Bool := w.visits.count t.target < limit

/-- Goes along `t`, and leaves `rest` for when the walk is back. -/
def enter (w : Walker) (g : FlowGraph) (t : Transition) (rest : List Transition)
    (outer : List Stop) : Walker :=
  ⟨w.visits.enter t.target, t :: w.path, ⟨g.successors t.target, false⟩ :: ⟨rest, true⟩ :: outer⟩

/-- Goes back to the stop before. -/
def leave (w : Walker) (outer : List Stop) : Walker :=
  match w.path with
  | [] => { w with stops := outer }
  | t :: path => ⟨w.visits.leave t.target, path, outer⟩

end Walker

/-- What a step of a walk does. -/
inductive WalkStep where
  /-- Nothing is left to try. -/
  | finished
  /-- The walk goes along an edge. -/
  | entered (w : Walker)
  /-- The walk goes back. If it never went further from there, a trace has ended. -/
  | left (trace : Option Trace) (w : Walker)

namespace Walker

/-- Takes the next edge that is admitted, or goes back if there is none. -/
def step (g : FlowGraph) (limit : Nat) (w : Walker) : WalkStep :=
  match w.stops with
  | [] => .finished
  | stop :: outer =>
      match stop.untried.dropWhile fun t => !w.admits limit t with
      | t :: rest => .entered (w.enter g t rest outer)
      | [] => .left (if stop.advanced then none else some w.path.reverse) (w.leave outer)

/-- The counts are those of the path. -/
def Counted (w : Walker) : Prop := ∀ p, w.visits.count p = w.path.entries p

theorem counted_start (g : FlowGraph) : (start g).Counted := Visits.count_none

theorem Counted.enter {w : Walker} (hw : w.Counted) (g : FlowGraph) (t : Transition)
    (rest : List Transition) (outer : List Stop) : (w.enter g t rest outer).Counted := by
  intro p
  simp only [Walker.enter, Visits.count_enter, Trace.entries_cons, hw p]

theorem Counted.leave {w : Walker} (hw : w.Counted) (outer : List Stop) :
    (w.leave outer).Counted := by
  obtain ⟨visits, path, stops⟩ := w
  cases path with
  | nil => exact hw
  | cons t path =>
      intro p
      have hp : visits.count p = Trace.entries (t :: path) p := hw p
      rw [Trace.entries_cons] at hp
      simp only [Walker.leave, Visits.count_leave, hp]
      omega

theorem step_cases (g : FlowGraph) (limit : Nat) (w : Walker) :
    (w.stops = [] ∧ w.step g limit = .finished) ∨
    (∃ stop outer t rest, w.stops = stop :: outer ∧ w.admits limit t ∧
      stop.untried.filter (w.admits limit) = t :: rest.filter (w.admits limit) ∧
      w.step g limit = .entered (w.enter g t rest outer)) ∨
    (∃ stop outer, w.stops = stop :: outer ∧ stop.untried.filter (w.admits limit) = [] ∧
      w.step g limit =
        .left (if stop.advanced then none else some w.path.reverse) (w.leave outer)) := by
  have hfilter : ∀ l : List Transition,
      (l.dropWhile fun t => !w.admits limit t).filter (w.admits limit) =
        l.filter (w.admits limit) := by
    intro l
    induction l with
    | nil => rfl
    | cons t l ih => by_cases ht : w.admits limit t <;> simp [ht, ih]
  unfold step
  cases hs : w.stops with
  | nil => exact Or.inl ⟨rfl, rfl⟩
  | cons stop outer =>
      have hf := hfilter stop.untried
      cases hd : stop.untried.dropWhile fun t => !w.admits limit t with
      | nil =>
          rw [hd] at hf
          exact Or.inr (Or.inr ⟨stop, outer, rfl, hf.symm, by simp [hd]⟩)
      | cons t rest =>
          have ht := List.head?_dropWhile_not (fun t => !w.admits limit t) stop.untried
          rw [hd] at hf ht
          simp only [List.head?_cons, Bool.not_eq_false'] at ht
          refine Or.inr (Or.inl ⟨stop, outer, t, rest, rfl, ht, ?_, by simp [hd]⟩)
          rw [← hf, List.filter_cons_of_pos ht]

/-- The number of steps that are left, for stops along a path. -/
def effortAt (g : FlowGraph) (limit : Nat) : List Stop → Trace → Nat
  | [], _ => 0
  | stop :: outer, path =>
      1 + ((stop.untried.filter fun t => path.entries t.target < limit).map fun t =>
        1 + g.effort limit (t :: path) t.target).foldr (· + ·) 0 + effortAt g limit outer path.tail

/-- The number of steps that are left. -/
def effort (g : FlowGraph) (limit : Nat) (w : Walker) : Nat := effortAt g limit w.stops w.path

/-- What the counts admit is what the path admits. -/
theorem Counted.filter_admits {w : Walker} (hw : w.Counted) (limit : Nat)
    (transitions : List Transition) :
    transitions.filter (w.admits limit) =
      transitions.filter fun t => w.path.entries t.target < limit := by
  apply List.filter_congr
  intro t _
  rw [admits, hw t.target]

theorem effort_enter (g : FlowGraph) (limit : Nat) (w : Walker) (t : Transition)
    (rest : List Transition) (outer : List Stop) :
    (w.enter g t rest outer).effort g limit = g.effort limit (t :: w.path) t.target +
      effortAt g limit (⟨rest, true⟩ :: outer) w.path := by
  rw [FlowGraph.effort_eq]
  rfl

theorem effort_leave (g : FlowGraph) (limit : Nat) (w : Walker) (outer : List Stop) :
    (w.leave outer).effort g limit = effortAt g limit outer w.path.tail := by
  unfold leave effort
  split <;> simp_all

theorem effort_lt_of_entered {g : FlowGraph} {limit : Nat} {w w' : Walker} (hw : w.Counted)
    (hs : w.step g limit = .entered w') :
    w'.Counted ∧ w'.effort g limit < w.effort g limit := by
  rcases step_cases g limit w with ⟨-, he⟩ | ⟨stop, outer, t, rest, hstops, -, hf, he⟩ |
    ⟨stop, outer, -, -, he⟩
  · rw [he] at hs; cases hs
  · rw [he] at hs
    cases hs
    refine ⟨hw.enter g t rest outer, ?_⟩
    rw [effort_enter, effort, hstops]
    simp only [hw.filter_admits] at hf
    simp only [effortAt, hf, List.map_cons, List.foldr_cons]
    omega
  · rw [he] at hs; cases hs

theorem effort_lt_of_left {g : FlowGraph} {limit : Nat} {w w' : Walker} {trace : Option Trace}
    (hw : w.Counted) (hs : w.step g limit = .left trace w') :
    w'.Counted ∧ w'.effort g limit < w.effort g limit := by
  rcases step_cases g limit w with ⟨-, he⟩ | ⟨stop, outer, t, rest, -, -, -, he⟩ |
    ⟨stop, outer, hstops, -, he⟩
  · rw [he] at hs; cases hs
  · rw [he] at hs; cases hs
  · rw [he] at hs
    cases hs
    refine ⟨hw.leave outer, ?_⟩
    rw [effort_leave, effort, hstops]
    simp only [effortAt]
    omega

end Walker

/-- How many traces were visited, the length of the longest of them, and whether there were more. -/
structure TraceStats where
  traces : Nat := 0
  longest : Nat := 0
  budgetExhausted : Bool := false
  deriving DecidableEq, Inhabited

/-- The statistics after one more trace. -/
def TraceStats.add (s : TraceStats) (trace : Trace) : TraceStats :=
  { s with traces := s.traces + 1, longest := max s.longest trace.length }

/-- Goes on with a walk and hands every trace that ends to `visit`. The walk is over when nothing is
left to try, when the budget is used up and one more trace ends, or when a visit fails. -/
def Walker.run {α ε : Type} (g : FlowGraph) (limit : Nat) (budget : Option Nat)
    (visit : α → Trace → Except ε α) (w : Walker) (hw : w.Counted) (acc : α)
    (stats : TraceStats) : Except ε (α × TraceStats) :=
  match hs : w.step g limit with
  | .finished => .ok (acc, stats)
  | .entered w' => w'.run g limit budget visit (effort_lt_of_entered hw hs).1 acc stats
  | .left none w' => w'.run g limit budget visit (effort_lt_of_left hw hs).1 acc stats
  | .left (some trace) w' =>
      if budget.any (· ≤ stats.traces) then .ok (acc, { stats with budgetExhausted := true })
      else match visit acc trace with
        | .error e => .error e
        | .ok acc =>
            w'.run g limit budget visit (effort_lt_of_left hw hs).1 acc (stats.add trace)
termination_by w.effort g limit
decreasing_by
  · exact (effort_lt_of_entered hw hs).2
  · exact (effort_lt_of_left hw hs).2
  · exact (effort_lt_of_left hw hs).2

namespace FlowGraph

/-- Visits the traces in depth-first order, up to the budget if there is one
(`TraceEnumerator.for_each`). The first failing visit ends the walk. -/
def forEachTrace {α ε : Type} (g : FlowGraph) (limit : Nat) (budget : Option Nat)
    (visit : α → Trace → Except ε α) (init : α) : Except ε (α × TraceStats) :=
  (Walker.start g).run g limit budget visit (Walker.counted_start g) init {}

/-- The traces in depth-first order, up to the budget if there is one (`generate_traces`). -/
def traces (g : FlowGraph) (limit : Nat) (budget : Option Nat) : List Trace :=
  let collect (found : List Trace) (t : Trace) : Except Empty (List Trace) := .ok (t :: found)
  match g.forEachTrace limit budget collect [] with
  | .ok (found, _) => found.reverse

end FlowGraph

end SliceLineage
