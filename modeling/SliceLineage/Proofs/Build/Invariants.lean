import SliceLineage.Proofs.Build.Course

/-!
# Invariants of graph construction

The walk over a function touches its state by a few basic steps only. What each of them keeps, the
whole walk keeps.

* `Build.Step`: the basic steps. Only to a `Hub` are other points joined, a point that the walk
  reserved for that, or an anchor behind an empty edge.
* `Build.Step.successors_cases`: the edge that a step adds, if it adds one.
* `Build.Invariant`: a property of states that every basic step keeps.
* `Build.Invariant.course`: every course is made of basic steps, so the walk keeps every invariant.
* `FunctionDecl.allOps_graph`: the graph of a function has no cell operations.
-/

namespace SliceLineage

namespace Build

/-- The point is part of the graph. -/
def Known (p : PointId) (s : BuildState) : Prop := p.index < s.cursor.graph.pointCount

/-- Other points may be joined to this one. -/
structure Hub (p : PointId) (s : BuildState) : Prop where
  known : Known p s
  inner : p ≠ s.cursor.graph.root
  noops : ∀ q, ∀ t ∈ s.cursor.graph.successors q, t.target = p → t.op = .noop

/-- No edge leads out of the graph, and the walk is inside. -/
structure Grounded (s : BuildState) : Prop where
  root : Known s.cursor.graph.root s
  current : Known s.cursor.current s
  targets : ∀ q, ∀ t ∈ s.cursor.graph.successors q, Known t.target s

/-- A basic step of the walk. Names may change freely, and the operations that are appended are no
cell operations. -/
inductive Step : BuildState → BuildState → Prop
  | scopes (s : BuildState) (scopes : Scopes) : Step s { s with scopes := scopes }
  | moveTo (s : BuildState) {p : PointId} (hp : Known p s) :
      Step s { s with cursor := s.cursor.moveTo p }
  | append (s : BuildState) {op : Operation} (hop : op.isMove = false) (span : Option Span) :
      Step s { s with cursor := s.cursor.append op span }
  | reserve (s : BuildState) (span : Option Span) :
      Step s { s with cursor := (s.cursor.reserve span).2 }
  | join (s : BuildState) {p : PointId} {c : Cursor} (hp : Hub p s)
      (hjoin : s.cursor.join p = (.ok (), c)) : Step s { s with cursor := c }

theorem Step.grows {s s' : BuildState} (h : Step s s') :
    s.cursor.graph.Grows s'.cursor.graph := by
  cases h with
  | scopes scopes => exact .refl _
  | moveTo hp => exact .refl _
  | append hop span => exact Cursor.grows_append _ _ _
  | reserve span => exact FlowGraph.grows_allocate _ _
  | join hp hjoin => exact Cursor.grows_join hjoin

/-- The edges that a step may add at the current point: one to a new point, or a new empty edge to
a hub. -/
def Adds (s : BuildState) (t : Transition) : Prop :=
  t.target = ⟨s.cursor.graph.pointCount⟩ ∧ t.op.isMove = false ∨
  t.op = .noop ∧ Hub t.target s ∧ t.target ≠ s.cursor.current ∧
    t ∉ s.cursor.graph.successors s.cursor.current

/-- **A step adds one edge at the current point, or none.** -/
theorem Step.successors_cases {s s' : BuildState} (h : Step s s') :
    (∀ q, s'.cursor.graph.successors q = s.cursor.graph.successors q) ∨
    ∃ t, Adds s t ∧ Known t.target s' ∧ ∀ q, s'.cursor.graph.successors q =
      if s.cursor.current = q then s.cursor.graph.successors q ++ [t]
      else s.cursor.graph.successors q := by
  cases h with
  | scopes scopes => exact Or.inl fun _ => rfl
  | moveTo hp => exact Or.inl fun _ => rfl
  | append hop span =>
      refine Or.inr ⟨_, Or.inl ⟨rfl, hop⟩, ?_, Cursor.successors_append _ _ _⟩
      show s.cursor.graph.pointCount < (s.cursor.append _ span).graph.pointCount
      rw [Cursor.pointCount_append]
      omega
  | reserve span => exact Or.inl (FlowGraph.successors_allocate _ _)
  | @join p c hp hjoin =>
      obtain ⟨-, ⟨hgraph, -⟩ | ⟨hgraph, hne, hnew⟩⟩ := Cursor.join_cases hjoin
      · exact Or.inl fun q => congrArg (·.successors q) hgraph
      · refine Or.inr ⟨⟨p, .noop⟩, Or.inr ⟨rfl, hp, hne, hnew⟩, ?_, fun q => ?_⟩
        · exact Nat.lt_of_lt_of_le hp.known (Cursor.grows_join hjoin).points
        · exact (congrArg (·.successors q) hgraph).trans (FlowGraph.successors_insert _ _ _ _ _)

theorem mem_of_added {g g' : FlowGraph} {p : PointId} {new : Transition}
    (h : ∀ q, g'.successors q = if p = q then g.successors q ++ [new] else g.successors q)
    {q : PointId} {t : Transition} (ht : t ∈ g'.successors q) :
    t ∈ g.successors q ∨ q = p ∧ t = new := by
  rw [h] at ht
  split at ht
  · rcases List.mem_append.mp ht with ht | ht
    · exact Or.inl ht
    · exact Or.inr ⟨Eq.symm ‹_›, List.mem_singleton.mp ht⟩
  · exact Or.inl ht

/-- An edge after a step was there before, or is the one that was added. -/
theorem Step.mem_successors {s s' : BuildState} (h : Step s s') {q : PointId} {t : Transition}
    (ht : t ∈ s'.cursor.graph.successors q) :
    t ∈ s.cursor.graph.successors q ∨ q = s.cursor.current ∧ Adds s t ∧ Known t.target s' := by
  rcases h.successors_cases with hsame | ⟨u, hadds, hknown, hsucc⟩
  · exact Or.inl (hsame q ▸ ht)
  · rcases mem_of_added hsucc ht with ht | ⟨hq, rfl⟩
    · exact Or.inl ht
    · exact Or.inr ⟨hq, hadds, hknown⟩

theorem Step.known {s s' : BuildState} (h : Step s s') {p : PointId} (hp : Known p s) :
    Known p s' :=
  Nat.lt_of_lt_of_le hp h.grows.points

theorem Step.hub {s s' : BuildState} (h : Step s s') {p : PointId} (hp : Hub p s) : Hub p s' where
  known := h.known hp.known
  inner := h.grows.root ▸ hp.inner
  noops q t ht htarget := by
    rcases h.mem_successors ht with ht | ⟨-, ⟨hnew, -⟩ | ⟨hop, -⟩, -⟩
    · exact hp.noops q t ht htarget
    · have hlt : t.target.index < s.cursor.graph.pointCount := htarget ▸ hp.known
      rw [hnew] at hlt
      exact absurd hlt (Nat.lt_irrefl _)
    · exact hop

theorem Step.grounded {s s' : BuildState} (h : Step s s') (hs : Grounded s) : Grounded s' where
  root := by
    rw [h.grows.root]
    exact h.known hs.root
  current := by
    cases h with
    | scopes scopes => exact hs.current
    | moveTo hp => exact hp
    | append hop span =>
        show s.cursor.graph.pointCount < (s.cursor.append _ span).graph.pointCount
        rw [Cursor.pointCount_append]
        omega
    | reserve span => exact (Step.reserve s span).known hs.current
    | join hp hjoin =>
        show Known (Cursor.current _) _
        rw [(Cursor.join_cases hjoin).1]
        exact (Step.join s hp hjoin).known hp.known
  targets q t ht := by
    rcases h.mem_successors ht with ht | ⟨-, -, hknown⟩
    · exact h.known (hs.targets q t ht)
    · exact hknown

/-- The walk stays in grounded states with the property. -/
structure Invariant (inv : BuildState → Prop) : Prop where
  grounded : ∀ s, inv s → Grounded s
  step : ∀ s s', Step s s' → inv s → inv s'

theorem invariant_grounded : Invariant Grounded := ⟨fun _ hs => hs, fun _ _ h hs => h.grounded hs⟩

theorem Invariant.and {inv extra : BuildState → Prop} (hi : Invariant inv)
    (h : ∀ s s', Grounded s → Step s s' → extra s → extra s') :
    Invariant fun s => inv s ∧ extra s where
  grounded s hs := hi.grounded s hs.1
  step s s' hstep hs := ⟨hi.step s s' hstep hs.1, h s s' (hi.grounded s hs.1) hstep hs.2⟩

theorem Invariant.appends {inv : BuildState → Prop} (hi : Invariant inv) : Appends inv where
  scopes s _ hs := hi.step s _ (.scopes s _) hs
  append s _ _ hop hs := hi.step s _ (.append s (Operation.isMove_of_isTransfer hop) _) hs

theorem Invariant.known {inv : BuildState → Prop} (hi : Invariant inv) (p : PointId) :
    Invariant fun s => inv s ∧ Known p s :=
  hi.and fun _ _ _ hstep hp => hstep.known hp

theorem Invariant.hub {inv : BuildState → Prop} (hi : Invariant inv) (p : PointId) :
    Invariant fun s => inv s ∧ Hub p s :=
  hi.and fun _ _ _ hstep hp => hstep.hub hp

/-! ## Basic steps -/

theorem known_reserve (s : BuildState) (span : Option Span) :
    Known (s.cursor.reserve span).1 { s with cursor := (s.cursor.reserve span).2 } := by
  show s.cursor.graph.pointCount < (s.cursor.graph.allocate span).2.pointCount
  rw [FlowGraph.pointCount_allocate]
  omega

/-- No edge leads to a new point. -/
theorem Grounded.target_ne {s : BuildState} (hs : Grounded s) {q : PointId} {t : Transition}
    (ht : t ∈ s.cursor.graph.successors q) : t.target ≠ ⟨s.cursor.graph.pointCount⟩ := by
  intro htarget
  have hlt := hs.targets q t ht
  rw [htarget] at hlt
  exact Nat.lt_irrefl _ hlt

theorem Grounded.root_ne {s : BuildState} (hs : Grounded s) :
    ⟨s.cursor.graph.pointCount⟩ ≠ s.cursor.graph.root := by
  intro hroot
  have hlt := hs.root
  rw [← hroot] at hlt
  exact Nat.lt_irrefl _ hlt

/-- A reserved point may become a hub. -/
theorem Grounded.hub_reserve {s : BuildState} (hs : Grounded s) (span : Option Span) :
    Hub (s.cursor.reserve span).1 { s with cursor := (s.cursor.reserve span).2 } where
  known := known_reserve s span
  inner := by
    rw [(Step.reserve s span).grows.root]
    exact hs.root_ne
  noops q t ht htarget := by
    have ht : t ∈ s.cursor.graph.successors q := FlowGraph.successors_allocate _ _ q ▸ ht
    exact absurd htarget (hs.target_ne ht)

/-- A new point behind an empty edge may become a hub. -/
theorem Grounded.hub_append {s : BuildState} (hs : Grounded s) (span : Option Span) :
    Hub ⟨s.cursor.graph.pointCount⟩ { s with cursor := s.cursor.append .noop span } where
  known := ((Step.append s rfl span).grounded hs).current
  inner := by
    rw [(Step.append s rfl span).grows.root]
    exact hs.root_ne
  noops q t ht htarget := by
    have ht : t ∈ (s.cursor.append .noop span).graph.successors q := ht
    rw [Cursor.successors_append] at ht
    split at ht
    · rcases List.mem_append.mp ht with ht | ht
      · exact absurd htarget (hs.target_ne ht)
      · rw [List.mem_singleton.mp ht]
    · exact absurd htarget (hs.target_ne ht)

/-! ## Courses -/

variable {inv : BuildState → Prop} {loops : Prop} {hub : Option PointId} {c c' : Cursor} {α : Type}

theorem Invariant.closes (hi : Invariant inv) {anchor : PointId}
    (hanchor : ∀ s, inv s → Hub anchor s) (h : Cursor.Closes anchor c c') (scopes : Scopes)
    (hs : inv ⟨c, scopes⟩) : inv ⟨c', scopes⟩ := by
  rcases h with ⟨-, rfl⟩ | ⟨-, hjoin⟩
  · exact hs
  · exact hi.step _ _ (.join _ (hanchor _ hs) hjoin) hs

/-- **What every basic step keeps, a course keeps.** The points to which the walk comes back stay
known on the way, and those to which it joins others stay hubs. -/
theorem Invariant.course (hi : Invariant inv) (h : Cursor.Course loops hub c c')
    (hhub : ∀ after ∈ hub, ∀ s, inv s → Hub after s) (scopes : Scopes) (hs : inv ⟨c, scopes⟩) :
    inv ⟨c', scopes⟩ := by
  induction h generalizing inv with
  | stay c => exact hs
  | trans _ _ ih ih' => exact ih' hi hhub (ih hi hhub hs)
  | append c hop span =>
      exact hi.step _ _ (.append _ (Operation.isMove_of_isTransfer hop) span) hs
  | ret c values span =>
      have hop : (Operation.ret values).isMove = false := rfl
      have hret := hi.step _ _ (.append ⟨c, scopes⟩ hop span) hs
      exact hi.step _ _ (.moveTo _ (known_reserve _ none)) (hi.step _ _ (.reserve _ none) hret)
  | @arm after c _ _ _ hjoin ih =>
      have hi' := hi.known c.current
      have hbody := ih hi' (by simp) ⟨hs, (hi.grounded _ hs).current⟩
      have hjoined := hi'.step _ _ (.join _ (hhub after rfl _ hbody.1) hjoin) hbody
      exact hi.step _ _ (.moveTo _ hjoined.2) hjoined.1
  | @branch _ c _ _ span _ hjoin ih =>
      have hi' := hi.hub (c.reserve span).1
      have hreserve := hi.step _ _ (.reserve ⟨c, scopes⟩ span) hs
      have harms := ih hi' (fun after ha s hs => Option.mem_some.mp ha ▸ hs.2)
        ⟨hreserve, (hi.grounded _ hs).hub_reserve span⟩
      exact hi.step _ _ (.join _ harms.2 hjoin) harms.1
  | @loop _ c c₁ _ _ _ span _ _ hclose ihhead ihround =>
      have hi' := hi.hub ⟨c.graph.pointCount⟩
      have hop : Operation.noop.isMove = false := rfl
      have hanchor := hi.step _ _ (.append ⟨c, scopes⟩ hop span) hs
      have hhead := ihhead hi' (by simp) ⟨hanchor, (hi.grounded _ hs).hub_append span⟩
      have hi'' := hi'.known c₁.current
      have hround := ihround hi'' (by simp) ⟨hhead, (hi.grounded _ hhead.1).current⟩
      have hclosed := hi''.closes (fun _ hs => hs.1.2) hclose scopes hround
      exact hi.step _ _ (.moveTo _ hclosed.2) hclosed.1.1

theorem Invariant.keeps (hi : Invariant inv) {m : Build α} (hm : Follows True m) : Keeps inv m := by
  intro s a s' hs hrun
  have hcourse : Cursor.Course True none s.cursor s'.cursor := hm.of_run hrun
  have hcursor := hi.course hcourse (by simp) s.scopes hs
  exact hi.step _ _ (.scopes ⟨s'.cursor, s.scopes⟩ s'.scopes) hcursor

theorem keeps_statements (hi : Invariant inv) (ctx : BuildContext) (stmts : List Stmt) :
    Keeps inv (statements ctx stmts) :=
  hi.keeps (follows_statements ctx stmts fun _ => trivial)

theorem grounded_start (span : Option Span) (scopes : Scopes) :
    Grounded ⟨.start span, scopes⟩ where
  root := by cases span <;> exact Nat.zero_lt_one
  current := by cases span <;> exact Nat.zero_lt_one
  targets q t ht := by
    have ht : t ∈ (Cursor.start span).graph.successors q := ht
    rw [Cursor.successors_start] at ht
    cases ht

end Build

/-- What holds at the start of the walk and is kept by its steps holds at its end. -/
theorem FunctionDecl.exists_of_graph {inv : BuildState → Prop} (hi : Build.Invariant inv)
    {registry : Registry} {f : FunctionDecl} {g : FlowGraph} (h : f.graph registry = .ok g)
    (hstart : ∀ span scopes, inv ⟨.start span, scopes⟩) : ∃ s, inv s ∧ s.cursor.graph = g := by
  obtain ⟨s, -, hgraph, hcourse⟩ := f.exists_course True h fun _ => trivial
  exact ⟨⟨s.cursor, s.scopes⟩, hi.course hcourse (by simp) s.scopes (hstart _ _), hgraph⟩

/-- **The graph of a function has no cell operations.** -/
theorem FunctionDecl.allOps_graph {registry : Registry} {f : FunctionDecl} {g : FlowGraph}
    (h : f.graph registry = .ok g) : g.AllOps (·.isMove = false) := by
  obtain ⟨s, -, rfl, hcourse⟩ := f.exists_course True h fun _ => trivial
  exact hcourse.allOps (fun _ => Operation.isMove_of_isTransfer) (fun _ => rfl) rfl
    (Cursor.allOps_start _ _)

end SliceLineage
