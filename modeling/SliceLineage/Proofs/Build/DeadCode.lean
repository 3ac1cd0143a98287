import SliceLineage.Lowering.Basic
import SliceLineage.Proofs.Build.Acceptance
import SliceLineage.Proofs.Build.Invariants
import SliceLineage.Proofs.Reachability

/-!
# Code after a return

After a return the walk over a function goes on at a point that nothing leads to. What the
statements behind it add to the graph can never be reached, and the part that can be reached is as
it was when the walk came to the return.

* `FlowGraph.SameLive`: a graph grows, but nowhere that can be reached. Then the same points can be
  reached afterwards, and they are listed in the same order.
* `FunctionDecl.withBody`: a function with other statements.
* `FunctionDecl.exists_graph_of_returns`: without the statements after a return, a function has a
  graph that differs only where nothing leads.
-/

namespace SliceLineage

namespace FlowGraph

/-- The graph `g` has all that `g₀` has, and is the same where a path from the root of `g₀`
leads. -/
structure SameLive (g₀ g : FlowGraph) : Prop where
  grows : g₀.Grows g
  edges : ∀ p, g₀.Reaches p → g.successors p = g₀.successors p
  spans : ∀ p, g₀.Reaches p → g.reference? p = g₀.reference? p

variable {g₀ g : FlowGraph}

theorem SameLive.refl (g : FlowGraph) : g.SameLive g := ⟨.refl g, fun _ _ => rfl, fun _ _ => rfl⟩

theorem SameLive.targets (h : g₀.SameLive g) {p : PointId} (hp : g₀.Reaches p) :
    g.targets p = g₀.targets p := congrArg (List.map Transition.target) (h.edges p hp)

/-- The same points can be reached, in the same order. -/
theorem SameLive.reachable_eq (h : g₀.SameLive g) : g.reachable = g₀.reachable := by
  unfold reachable
  simp only [h.grows.root]
  refine saturate_congr (fun p hp => h.targets hp) (fun p hp q hq => ?_) _ _ _ _ _ _ fun p hp => ?_
  · exact Relation.ReflTransGen.tail hp hq
  · rw [List.mem_singleton.mp hp]
    exact .root g₀

theorem SameLive.reaches_iff (h : g₀.SameLive g) {p : PointId} : g.Reaches p ↔ g₀.Reaches p := by
  rw [← mem_reachable_iff, ← mem_reachable_iff, h.reachable_eq]

/-- A graph that grows performs no fewer assignments. -/
theorem Grows.mem_assignments (h : g₀.Grows g) {registry : Registry} {a : Assignment}
    (ha : a ∈ g₀.assignments registry) : a ∈ g.assignments registry := by
  obtain ⟨⟨p, t⟩, he, ha⟩ := List.mem_flatMap.mp ha
  exact List.mem_flatMap.mpr ⟨(p, t), mem_edges.mpr ((h.edges p).subset (mem_edges.mp he)), ha⟩

end FlowGraph

namespace Build

variable {ctx : BuildContext} {s s' : BuildState}

theorem statements_append (ctx : BuildContext) (pre post : List Stmt) :
    statements ctx (pre ++ post) = (do statements ctx pre; statements ctx post) := by
  induction pre with
  | nil => simp [statements]
  | cons stmt pre ih => simp [statements, ih]

/-- A return ends at a point that is new. -/
theorem exists_detach_of_ret {inv : BuildState → Prop} {results : List Expr} {span : Span}
    (ha : Appends inv) (hret : ∀ s values span, inv s →
      inv { s with cursor := s.cursor.append (.ret values) span }) (hs : inv s)
    (h : (statement ctx (.ret results span)).run s = .ok ((), s')) :
    ∃ s₁, inv s₁ ∧ s' = { s₁ with cursor := s₁.cursor.detach } := by
  rw [statement] at h
  obtain ⟨values, s₁, hvalues, h⟩ := exists_of_run_bind h
  obtain ⟨_, s₂, happend, hdetach⟩ := exists_of_run_bind h
  have hs₁ := keeps_returnValues ha ctx results span s _ s₁ hs hvalues
  cases happend
  cases hdetach
  exact ⟨_, hret s₁ values _ hs₁, rfl⟩

/-- Nothing leads to the point where the walk goes on after it was detached. -/
theorem Grounded.known_of_reaches (hs : Grounded s) {p : PointId}
    (hp : s.cursor.detach.graph.Reaches p) : Known p s := by
  induction hp with
  | refl => exact hs.root
  | tail _ hq _ =>
      obtain ⟨t, ht, rfl⟩ := List.mem_map.mp hq
      exact hs.targets _ t (FlowGraph.successors_allocate _ none _ ▸ ht)

/-- **What is walked over after a return cannot be reached.** -/
theorem sameLive_of_returns {pre post : List Stmt} {results : List Expr} {span : Span}
    (hs : Grounded s)
    (h : (statements ctx (pre ++ .ret results span :: post)).run s = .ok ((), s')) :
    ∃ s₁, (statements ctx (pre ++ [.ret results span])).run s = .ok ((), s₁) ∧
      s₁.cursor.graph.SameLive s'.cursor.graph := by
  rw [List.append_cons, statements_append] at h
  obtain ⟨_, s₁, hfirst, hpost⟩ := exists_of_run_bind h
  refine ⟨s₁, hfirst, ?_⟩
  rw [statements_append] at hfirst
  obtain ⟨_, s₂, hpre, hret⟩ := exists_of_run_bind hfirst
  have hs₂ := keeps_statements invariant_grounded ctx pre s _ s₂ hs hpre
  simp only [statements, bind_pure_unit] at hret
  obtain ⟨s₃, hs₃, rfl⟩ := exists_detach_of_ret invariant_grounded.appends
    (fun s values _ hs => invariant_grounded.step _ _ (.append s rfl _) hs) hs₂ hret
  have hextends := (walks_statements ctx s₃.cursor.detach post).of_run
    (.refl s₃.cursor.extends_detach.inside) hpost
  have hgrows : Invariant fun s => Grounded s ∧ s₃.cursor.detach.graph.Grows s.cursor.graph :=
    invariant_grounded.and fun _ _ _ hstep hg => hg.trans hstep.grows
  have hs₁ := invariant_grounded.step _ _ (.moveTo _ (known_reserve s₃ none))
    (invariant_grounded.step s₃ _ (.reserve s₃ none) hs₃)
  have hframe := hextends.1.frame
  refine ⟨(keeps_statements hgrows ctx post _ _ _ ⟨hs₁, .refl _⟩ hpost).2, fun p hp => ?_,
    fun p hp => hframe.spans p (Nat.lt_succ_of_lt (hs₃.known_of_reaches hp))⟩
  have hknown := hs₃.known_of_reaches hp
  refine hframe.edges p (Nat.lt_succ_of_lt hknown) ?_
  rintro rfl
  exact Nat.lt_irrefl _ hknown

end Build

namespace FunctionDecl

/-- The function with other statements in its body. -/
def withBody (f : FunctionDecl) (stmts : List Stmt) : FunctionDecl :=
  { f with body := ⟨stmts, f.body.span⟩ }

theorem withBody_stmts (f : FunctionDecl) : f.withBody f.body.stmts = f := by
  obtain ⟨name, params, results, ⟨stmts, span⟩, place⟩ := f
  rfl

/-- The state in which the walk over the statements of the body begins. -/
def bodyState (f : FunctionDecl) : BuildState :=
  { f.startState with scopes := f.startState.scopes.push }

/-- The graph of a function, by the statements of its body. -/
theorem graph_withBody (registry : Registry) (f : FunctionDecl) (stmts : List Stmt) :
    (f.withBody stmts).graph registry =
      ((Build.statements ⟨registry, f.arity, f.scopes.1⟩ stmts).run f.bodyState).map
        (·.2.cursor.graph) := by
  rw [graph_eq, withBody, Build.blockBody]
  show Except.map _ ((Build.statements ⟨registry, f.arity, f.scopes.1⟩ stmts).run f.bodyState >>=
    fun result => Except.ok (PUnit.unit,
      { result.2 with scopes := result.2.scopes.pop })) = _
  cases (Build.statements ⟨registry, f.arity, f.scopes.1⟩ stmts).run f.bodyState <;> rfl

/-- **The code after a return adds nothing that can be reached.** If a function with such code has a
graph, so has the function without it, and the two graphs differ only where nothing leads. -/
theorem exists_graph_of_returns {registry : Registry} {f : FunctionDecl} {pre post : List Stmt}
    {results : List Expr} {span : Span} {g : FlowGraph}
    (h : (f.withBody (pre ++ .ret results span :: post)).graph registry = .ok g) :
    ∃ g₀, (f.withBody (pre ++ [.ret results span])).graph registry = .ok g₀ ∧ g₀.SameLive g := by
  have hstart : Build.Grounded f.bodyState := Build.invariant_grounded.step f.startState _
    (.scopes _ _) (Build.grounded_start (some f.span) f.scopes.2)
  rw [graph_withBody] at h ⊢
  cases hrun : (Build.statements ⟨registry, f.arity, f.scopes.1⟩
      (pre ++ .ret results span :: post)).run f.bodyState with
  | error e =>
      rw [hrun] at h
      cases h
  | ok result =>
      rw [hrun] at h
      obtain rfl : result.2.cursor.graph = g := Except.ok.inj h
      obtain ⟨s, hs, hlive⟩ := Build.sameLive_of_returns hstart hrun
      rw [hs]
      exact ⟨s.cursor.graph, rfl, hlive⟩

end FunctionDecl

end SliceLineage
