import Mathlib
import SliceLineage.Proofs.Build.BlankAssignments
import SliceLineage.Proofs.Build.Temporaries
import SliceLineage.Proofs.Check.DeadCode
import SliceLineage.Proofs.Lowering.Refinement
import SliceLineage.Proofs.Summary.Registration
import SliceLineage.Proofs.Lowering.SilentCalls

/-!
# Expression statements

A modelled call that stands as a statement is a call without outputs in the graph of its function,
and the check of the graph passes over it. As an assignment to `_` it would have an output, and an
effect.

* `FlowGraph.check_silence`: calls without outputs have no part in a check.
* `FunctionDecl.analyze_bindBlank`: values that are not followed may be assigned to blank.
* `FunctionDecl.expression_statements_silent`: what an expression statement does in a function, and
  what it would do as an assignment to `_`.
-/

namespace SliceLineage

/-- A check makes no difference between calls without outputs and empty edges. -/
theorem FlowGraph.check_silence {registry : Registry} {g : FlowGraph}
    (hreg : ∀ s ∈ registry.summaries, s.check = .ok ()) (hg : g.Wired) (settings : Settings) :
    g.silence.check registry settings = g.check registry settings := by
  rw [check_eq_map, check_eq_map,
    lower_silence (fun s hs => Summary.outcomes_ne_nil (hreg s hs)) hg]
  rfl

namespace FunctionDecl

variable {registry : Registry} {f : FunctionDecl} {g : FlowGraph}

/-- Values that are not followed may be assigned to blank in any number of statements. -/
theorem analyze_bindBlank {picks : Expr → Bool} (hp : PicksUnfollowed registry picks)
    (settings : Settings) :
    (f.bindBlank picks).analyze registry settings = f.analyze registry settings := by
  have hgraph : (f.bindBlank picks).graph registry = f.graph registry := by
    rw [graph_eq, graph_eq, bindBlank, Build.blockBody_bindBlank hp]
    rfl
  rw [analyze, hgraph]
  rfl

/-- **A modelled call that stands as a statement has no effect, unlike one that is assigned to
blank.** Values that are not followed may be assigned to blank anywhere. At every position of an
expression statement in a function that has a graph:

* if the expression is a modelled call, the graph gets this call without outputs, while the
  assignment to blank gives it a new value, which is read into blank; and the report on the graph is
  the one with empty edges in the place of all calls without outputs;
* if not, the assignment to blank does what the expression statement does and then reads the value
  into blank, which does nothing if the value is not followed. -/
theorem expression_statements_silent (hreg : ∀ s ∈ registry.summaries, s.check = .ok ())
    (h : f.graph registry = .ok g) (settings : Settings) :
    (∀ picks, PicksUnfollowed registry picks →
      (f.bindBlank picks).analyze registry settings = f.analyze registry settings) ∧
    g.silence.check registry settings = g.check registry settings ∧
    ∀ enter e span rest,
      Build.Leads (f.context registry) f.body.stmts enter (.expr e span :: rest) →
      ∃ s s₀, enter.run f.bodyState = .ok ((), s) ∧
        (Build.statement (f.context registry) (.expr e span)).run s = .ok ((), s₀) ∧
        (∀ site, e.site? (s.scopes.func? registry) registry.slice? = some site →
          ∃ inputs, ∃ s₁ : BuildState,
            s₀ = ⟨s₁.cursor.append (.call site.func inputs []) (some site.span), s₁.scopes⟩ ∧
            .call site.func inputs [] ∈ g.history ∧
            (Build.statement (f.context registry) (.assignBlank e span)).run s = .ok ((),
              ⟨(s₁.cursor.append (.call site.func inputs [.tracked s₁.scopes.allocated])
                  (some site.span)).append
                (.assign (.whole (.tracked s₁.scopes.allocated)) .blank) (some span),
                ⟨s₁.scopes.frames, s₁.scopes.allocated + 1⟩⟩)) ∧
        (e.site? (s.scopes.func? registry) registry.slice? = none → ∃ c,
          (Build.evaluate registry e 1).run s = .ok ([c], s₀) ∧
          (Build.statement (f.context registry) (.assignBlank e span)).run s =
            (Build.store .blank c span).run s₀) ∧
        (e.unfollowed (s.scopes.func? registry) registry.slice? = true →
          (Build.statement (f.context registry) (.assignBlank e span)).run s = .ok ((), s₀)) := by
  refine ⟨fun picks hp => analyze_bindBlank hp settings,
    FlowGraph.check_silence hreg (wired_graph h) settings, fun enter e span rest hleads => ?_⟩
  obtain ⟨final, hrun, rfl⟩ := f.exists_run_of_graph h
  obtain ⟨s, s₂, _, _, henter, hlist, -, ⟨before, _, hbefore⟩, ⟨after, _, hafter⟩, hs, -⟩ :=
    hleads.stops f.bodyState final f.separate_bodyState hrun
  rw [Build.statements] at hlist
  obtain ⟨_, s₀, hstmt, hrest⟩ := exists_of_run_bind hlist
  refine ⟨s, s₀, henter, hstmt, fun site hsite => ?_,
    fun hsite => Build.run_assignBlank_of_no_site hs hsite hstmt, fun hvalue => ?_⟩
  · obtain ⟨inputs, s₁, hkeeps, hs₀, hassign⟩ := Build.run_assignBlank_of_site hsite hstmt
    refine ⟨inputs, s₁, hs₀, ?_, hassign⟩
    obtain ⟨ops, hops⟩ := hkeeps _ Build.appends_records
      ⟨_, hbefore.records [] (Cursor.records_start (some f.span))⟩
    have hcall : s₀.cursor.graph.Records (ops ++ [.call site.func inputs []]) := by
      rw [hs₀]
      exact Cursor.records_append hops _ _
    obtain ⟨hseparate, -, -⟩ := Build.logs_statement (.expr e span) _ s () s₀ rfl hs
      hstmt
    obtain ⟨-, ⟨middle, _, hmiddle⟩, -⟩ :=
      Build.logs_statements rest _ s₀ () s₂ rfl hseparate hrest
    rw [(hafter.records _ (hmiddle.records _ hcall)).history_eq]
    simp
  · rw [Build.run_assignBlank_of_unfollowed span hvalue]
    exact hstmt

/-- A function of a parameter `v`. -/
def ofParam (body : List Stmt) : FunctionDecl := ⟨"f", ["v"], [], ⟨body, default⟩, default⟩

/-- Three statements with growths: the first one does not follow the value, the second one is a
growth, and the third one defines a variable. -/
def discarded : FunctionDecl :=
  ofParam [.expr (.unary ((Expr.param.grown 1).grown 1) (.ofLine 1)) (.ofLine 1),
    .expr (Expr.param.grown 2) (.ofLine 2), .define ["y"] [Expr.param.grown 3] (.ofLine 3)]

/-- In the first statement the inner growth has an output, so that the third statement is reported,
also if the first one is an assignment. The second statement is a call without outputs. -/
theorem discarded_silent :
    ∃ g inputs, discarded.graph .builtin = .ok g ∧
      PicksUnfollowed .builtin (·.unfollowed Registry.builtin.lookup? Registry.builtin.slice?) ∧
      (discarded.bindBlank (·.unfollowed Registry.builtin.lookup? Registry.builtin.slice?)).analyze
        .builtin default = discarded.analyze .builtin default ∧
      discarded.findings .builtin default = .ok [(⟨4⟩, some (.ofLine 3))] ∧
      g.silence.check .builtin default = g.check .builtin default ∧
      .call ⟨1⟩ inputs [] ∈ g.history := by
  obtain ⟨enter, hleads, hstate⟩ : ∃ enter,
      Build.Leads (discarded.context .builtin) discarded.body.stmts enter
        [.expr (Expr.param.grown 2) (.ofLine 2), .define ["y"] [Expr.param.grown 3] (.ofLine 3)] ∧
      (enter.run discarded.bodyState).map (fun r => (Expr.param.grown 2).site?
        (r.2.scopes.func? .builtin) Registry.builtin.slice?) = .ok (some ⟨⟨1⟩, .ofLine 2⟩) := by
    refine ⟨_, .next _ (.here _), ?_⟩
    cbv
  have hreg := Registry.Consistent.builtin.checked
  have hfindings : discarded.findings .builtin default = .ok [(⟨4⟩, some (.ofLine 3))] := by cbv
  cases hg : discarded.graph .builtin with
  | error e => simp [findings, analyze, hg, bind, Except.bind, Except.map] at hfindings
  | ok g =>
      obtain ⟨hbind, hsilence, hpositions⟩ := expression_statements_silent hreg hg default
      obtain ⟨s, s₀, henter, -, hcalls, -⟩ := hpositions _ _ _ _ hleads
      rw [henter] at hstate
      obtain ⟨inputs, s₁, -, hcall, -⟩ := hcalls _ (Except.ok.inj hstate)
      have hpicks : PicksUnfollowed .builtin
          (·.unfollowed Registry.builtin.lookup? Registry.builtin.slice?) := fun _ he => he
      exact ⟨g, inputs, rfl, hpicks, hbind _ hpicks, hfindings, hsilence, hcall⟩

/-- A growth without use, and a growth of the same value. -/
def grownUnused : FunctionDecl :=
  ofParam [.expr (Expr.param.grown 1) (.ofLine 1), .define ["y"] [Expr.param.grown 2] (.ofLine 2)]

/-- A value is grown around the replacement of a field, and another field is mentioned. -/
def mentionedField : FunctionDecl :=
  ofParam (Stmt.growAround ++ [.expr (Expr.param.field "b") (.ofLine 4)])

/-- **Assigning an expression statement to blank can change the findings**: it makes a growth count,
or it makes a field a leaf of its own. -/
theorem assignBlank_can_change_findings :
    (grownUnused.findings .builtin default = .ok [] ∧
      (grownUnused.bindBlank fun _ => true).findings .builtin default =
        .ok [(⟨3⟩, some (.ofLine 2))]) ∧
    mentionedField.findings .builtin default = .ok [] ∧
      (mentionedField.bindBlank fun _ => true).findings .builtin default =
        .ok [(⟨4⟩, some (.ofLine 3))] := by
  refine ⟨⟨?_, ?_⟩, ?_, ?_⟩ <;> cbv

end FunctionDecl

end SliceLineage
