import SliceLineage.Proofs.Build.EvaluationLogic
import SliceLineage.Proofs.Build.Extension
import SliceLineage.Proofs.Build.StatementLogic

/-!
# Which functions have a flow graph

Building the graph of a function fails on a tree of the wrong shape only, and the shape can be read
off the tree alone: neither the registry nor the names in scope have a part in it.

* `Build.walksLogic`, `Build.walksStatements`: the rules by which the walk over an expression and
  over a statement succeeds exactly on the shape that `Expr.wellShaped` and `Stmt.wellShaped` read
  off the tree.
* `graph_accepts_exactly_wellShaped`: the result for functions.
-/

namespace SliceLineage

namespace Build

variable {c₀ : Cursor}

/-! ## Expressions -/

/-- Modelled or not, a call gives as many values as are requested. -/
theorem walks_callIfModelled (func : Option FuncId) (inputs : List Composition) (span : Span)
    (count : Nat) : Walks c₀ True (callIfModelled func inputs span count) (·.length = count) := by
  cases func with
  | none => exact .pure List.length_replicate
  | some func =>
      refine Decides.of_run_eq (run_callModelled func inputs span count) fun s hs => ⟨?_, by simp⟩
      exact hs.trans (s.cursor.extends_append _ (some span))

/-- Evaluation as a walk. -/
def walksLogic (c₀ : Cursor) (registry : Registry) :
    EvaluationLogic registry registry id Unit where
  func? _ := none
  means _ _ := True
  since _ _ := True
  good _ _ _ _ := True
  judge r _ _ m _ post := Walks c₀ r.fits m fun a => post a ()
  since_refl _ := trivial
  good_later h _ := h
  good_earlier h _ := h
  good_plain h := h
  pure h := .pure h
  throw span _ htree hfits := (Walks.throw span htree).congr (iff_false_intro hfits).symm
  bind hm hk := Walks.bind hm fun a ha => hk a () trivial ha
  rebase _ h := h.imp (fun _ h => h) fun _ _ h => ⟨h.1, trivial, h.2⟩
  lookup _ _ := (Walks.reads _).imp (fun _ h => h) fun _ _ h => ⟨h.1, fun _ => trivial⟩
  modelled callee _ :=
    Decides.of_run_eq (run_modelled? registry callee) fun _ hs => ⟨hs, trivial⟩
  call span count _ _ _ := (walks_callIfModelled _ _ span count).imp (fun _ h => h)
    fun _ _ h => ⟨h.1, h.2, fun _ _ _ _ => trivial⟩
  slice span count _ _ := (walks_callIfModelled _ _ span count).imp (fun _ h => h)
    fun _ _ h => ⟨h.1, h.2, fun _ _ _ _ => trivial⟩

/-- **An expression can be evaluated for `count` values exactly if it is well shaped and has so many
values.** -/
theorem walks_evaluate (registry : Registry) (e : Expr) (count : Nat) :
    WalksBy c₀ (e.wellShaped = true ∧ (count < 2 ∨ e.manyValued = true))
      (evaluate registry e count) :=
  ((walksLogic c₀ registry).evaluate e count (b := ()) (w := ()) trivial).imp (fun _ h => h)
    fun _ _ h => ⟨h.1, trivial⟩

theorem walks_evaluateOne (registry : Registry) (e : Expr) :
    WalksBy c₀ (e.wellShaped = true) (evaluateOne registry e) :=
  (((walksLogic c₀ registry).evaluateOne e (b := ()) (w := ()) trivial).imp (fun _ h => h)
    fun _ _ h => ⟨h.1, trivial⟩).congr (and_iff_left (Or.inl Nat.one_lt_two))

/-- **The values that are there are as many as the targets**, so they are never refused for their
number once they are evaluated. -/
theorem walks_evaluateValues (registry : Registry) (span : Span) (values : List Expr)
    (targets : Nat) :
    Walks c₀ (Expr.allWellShaped values = true ∧ Expr.fitTargets values targets = true)
      (evaluateValues registry span values targets) (·.length = targets) :=
  (walksLogic c₀ registry).evaluateValues span values targets (b := ()) (w := ()) trivial

/-! ## Statements -/

theorem walks_defineNames (span : Span) :
    ∀ names : List (String × Composition), WalksBy c₀ True (defineNames span names)
  | [] => .pure trivial
  | (name, c) :: rest =>
      ((walks_declare name).bind fun _ _ => (walks_store _ c span).bind fun _ _ =>
        walks_defineNames span rest).congr (by simp only [and_self])

theorem walks_assignTargets (ctx : BuildContext) (span : Span) :
    ∀ targets : List (Expr × Composition),
      WalksBy c₀ (Expr.allWellShaped (targets.map Prod.fst) = true) (assignTargets ctx span targets)
  | [] => (Walks.pure trivial).congr (by simp [Expr.allWellShaped])
  | (target, c) :: rest => by
      have hrest := walks_assignTargets ctx span rest
      have hshape : Expr.allWellShaped (((target, c) :: rest).map Prod.fst) = true ↔
          target.wellShaped = true ∧ Expr.allWellShaped (rest.map Prod.fst) = true := by
        simp [Expr.allWellShaped]
      rw [hshape, assignTargets]
      refine (walks_evaluateOne ctx.registry target).bind fun place _ => ?_
      split
      · exact ((walks_store _ c span).bind fun _ _ => hrest).congr (by simp only [true_and])
      · exact hrest

theorem walks_storeResults (span : Span) :
    ∀ cs : List Composition, WalksBy c₀ True (storeResults span cs)
  | [] => .pure trivial
  | c :: cs =>
      have hfresh : WalksBy c₀ True fresh :=
        .scopes (f := fun s => s.scopes.fresh) fun _ => trivial
      (hfresh.bind fun _ _ => (walks_store _ c span).bind fun _ _ =>
        (walks_storeResults span cs).bind fun _ _ => .pure trivial).congr (by simp only [and_self])

theorem walks_returnWith (ctx : BuildContext) (results : List Expr) (span : Span) :
    WalksBy c₀ (Expr.allWellShaped results = true ∧ Expr.fitTargets results ctx.arity = true)
      (returnWith ctx results span) := by
  have hvalues : WalksBy c₀
      (Expr.allWellShaped results = true ∧ Expr.fitTargets results ctx.arity = true)
      (returnValues ctx results span) := by
    unfold returnValues
    split
    · exact .congr (.pure trivial) (by simp [Expr.allWellShaped, Expr.fitTargets])
    · exact ((walks_evaluateValues ctx.registry span _ _).bind fun cs _ =>
        walks_storeResults span cs).congr (by simp only [and_true])
  exact (hvalues.bind fun _ _ => (walks_append _ span).bind fun _ _ => walks_detach).congr
    (by simp only [and_true])

theorem walks_rangeBinding (ctx : BuildContext) (defines : Bool) (e : Option Expr) :
    WalksBy c₀ (Expr.rangeVariable defines e = true) (rangeBinding ctx defines e) := by
  unfold rangeBinding
  split
  · exact .congr (.pure trivial) (by simp [Expr.rangeVariable])
  · rename_i e
    cases defines with
    | true =>
        simp only [if_true]
        split
        · rename_i name hname
          exact ((walks_declare name).bind fun _ _ => walks_copy _ _ _).congr
            (by simp [Expr.rangeVariable, hname])
        · rename_i hname
          exact .congr (.throw _ rfl) (by simp [Expr.rangeVariable, hname])
    | false =>
        have hshape : Expr.rangeVariable false (some e) = true ↔ e.wellShaped = true ∧ True := by
          simp [Expr.rangeVariable]
        simp only [Bool.false_eq_true, if_false]
        rw [hshape]
        refine (walks_evaluateOne ctx.registry e).bind fun place _ => ?_
        split
        · exact walks_copy _ _ _
        · exact .pure trivial

theorem walks_bindSubject (span : Span) :
    ∀ binding : Option (String × Composition), WalksBy c₀ True (bindSubject span binding)
  | none => .pure trivial
  | some (name, subject) =>
      ((walks_declare name).bind fun _ _ => walks_store _ subject span).congr
        (by simp only [and_self])

/-- The end of a switch: without a default clause, control may pass all clauses. -/
theorem decides_leave {c : Cursor} {after : PointId} (hafter : c.Apart after) (hasDefault : Bool) :
    Decides (c.Frame c.current) True
      (if hasDefault then moveTo after else do moveTo c.current; join after; moveTo after)
      fun _ c' => c.Frame c.current c' ∧ c'.current = after := by
  have hmove : Decides (c.Frame c.current) True (moveTo after)
      fun _ c' => c.Frame c.current c' ∧ c'.current = after :=
    decides_moveTo fun _ h => ⟨h.moveTo _, rfl⟩
  split
  · exact hmove
  · have hback : Decides (c.Frame c.current) True (moveTo c.current) fun _ => c.Extends :=
      decides_moveTo fun _ h => h.extends hafter.inside
    have hjoin : Decides c.Extends True (join after) fun _ => c.Frame c.current :=
      decides_join (fun _ h => (hafter.extends h).ne) fun _ _ h hjoined =>
        h.frame_trans (Cursor.frame_join hjoined)
    exact (hback.bind fun _ => hjoin.bind fun _ => hmove).congr (by simp only [and_self])

/-- All clauses of a switch, and the way past them. -/
theorem decides_clauses {clauses : PointId → Build Unit} {hasDefault : Bool} {ok : Prop}
    {c : Cursor} {after : PointId} (hafter : c.Apart after)
    (h : ∀ c : Cursor, c.Apart after →
      Decides (c.Frame c.current) ok (clauses c.current) fun _ => c.Frame c.current) :
    Decides c.Extends ok
      (do
        let fork ← current
        clauses fork
        unless hasDefault do
          moveTo fork
          join after
        moveTo after)
      fun _ c' => c.Frame c.current c' ∧ c'.current = after := by
  refine decides_current_bind fun c₁ h₁ => ?_
  have hapart := hafter.extends h₁
  have hclauses : Decides (· = c₁) _ (clauses c₁.current) _ :=
    (h c₁ hapart).imp (fun _ h => h.symm ▸ .refl _ _) fun _ _ h => h
  refine ((hclauses.bind fun _ => decides_leave hapart _).imp (fun _ h => h) ?_).congr
    (by simp only [and_true])
  exact fun _ _ h => ⟨h₁.frame_trans h.1, h.2⟩

/-- One clause, which begins where the walk stood and ends at a point that can be joined. -/
theorem decides_clause {body : Build Unit} {ok : Prop} {c : Cursor} {after : PointId}
    (hafter : c.Apart after) (hbody : WalksBy c ok body) :
    Decides (c.Frame c.current) ok (do moveTo c.current; body; join after)
      fun _ => c.Frame c.current := by
  have hback : Decides (c.Frame c.current) True (moveTo c.current) fun _ => c.Extends :=
    decides_moveTo fun _ h => h.extends hafter.inside
  have hjoin : Decides (fun c' => c.Extends c' ∧ True) True (join after)
      fun _ => c.Frame c.current :=
    decides_join (fun _ h => (hafter.extends h.1).ne) fun _ _ h hjoined =>
      h.1.frame_trans (Cursor.frame_join hjoined)
  exact (hback.bind fun _ => Decides.bind hbody fun _ => hjoin).congr
    (by simp only [true_and, and_true])

/-- A loop whose rounds begin at its anchor, and which is left from where the rounds begin. -/
theorem walks_loop {head round : Build Unit} {ok ok' : Prop} (span : Span)
    (hhead : WalksBy c₀ ok head) (hround : ∀ c, WalksBy c ok' round) :
    WalksBy c₀ (ok ∧ ok') (do
      append .noop span
      let anchor ← current
      head
      let exit ← current
      round
      closeLoop anchor
      moveTo exit) := by
  have hrest : ∀ anchor, WalksBy c₀ ok' (do
      let exit ← current
      round
      closeLoop anchor
      moveTo exit) := by
    refine fun anchor => decides_current_bind fun c hc => ?_
    have hbody : Decides (· = c) ok' round fun _ => c.Extends :=
      (hround c).imp (fun _ h => h.symm ▸ .refl hc.inside) fun _ _ h => h.1
    exact (hbody.bind fun _ => walks_closeLoop_bind hc anchor).congr (and_iff_left trivial)
  exact ((walks_append .noop span).bind fun _ _ => (Walks.reads _).bind fun anchor _ =>
    hhead.bind fun _ _ => hrest anchor).congr (by simp only [true_and])

/-- The walk over statements: it succeeds exactly if what was read of them fits. -/
def walksStatements (ctx : BuildContext) (r : Renaming) : StatementLogic ctx ctx.registry r where
  judge k _ _ m _ := ∀ c₀, WalksBy c₀ k.fits m
  arms after k _ _ m _ := ∀ c : Cursor, c.Apart after →
    Decides c.Extends k.fits m fun _ => c.Frame c.current
  clauses after fork _ k _ _ m _ := ∀ c : Cursor, c.Apart after → fork = c.current →
    Decides (c.Frame c.current) k.fits m fun _ => c.Frame c.current
  idle _ := .pure trivial
  refuse span _ _ htree hfits _ := (Walks.throw span htree).congr (iff_false_intro hfits).symm
  seq hm hn c₀ := (hm c₀).bind fun _ _ => hn c₀
  inFrame hm c₀ := walks_inFrame (hm c₀)
  effect e _ := (walks_evaluate ctx.registry e 0).discard.congr (by simp)
  define names values span _ := ((walks_evaluateValues ctx.registry span values _).bind fun _ _ =>
    walks_defineNames span _).congr (and_iff_left trivial)
  assign targets values span _ := by
    refine (walks_evaluateValues ctx.registry span values _).bind fun cs hcs =>
      (walks_assignTargets ctx span _).congr ?_
    rw [List.map_fst_zip (Nat.le_of_eq hcs.symm)]
  ret results span _ := walks_returnWith ctx results span
  rangeBinding defines e _ := walks_rangeBinding ctx defines e
  subject e _ hm c₀ := (walks_evaluateOne ctx.registry e).bind fun c _ => hm c c₀
  bindSubject c span _ _ := walks_bindSubject span _
  arm hsetup hbody hrest c hafter := by
    have harm := walks_arm hafter (hsetup c) hbody
    exact Decides.bind harm fun _ => (hrest c hafter).imp (fun _ h => h.1) fun _ _ h => h
  lastArm hbody c hafter := by
    have hsetup : WalksBy c True (return : Build Unit) := .pure trivial
    have harm := walks_arm hafter hsetup hbody
    exact (harm.imp (fun _ h => h) fun _ _ h => h.1.frame).congr (and_iff_right trivial)
  noArm c hafter := decides_join (fun _ h => (hafter.extends h).ne) fun _ _ h hjoined =>
    h.frame_trans (Cursor.frame_join hjoined)
  refuseArm span _ _ htree hfits _ _ :=
    (Decides.throw span htree).congr (iff_false_intro hfits).symm
  branch span hm _ := walks_reserve_bind span fun after c hafter =>
    ((hm after c hafter).bind fun _ => decides_moveTo fun _ h => ⟨h.moveTo _, rfl⟩).congr
      (and_iff_left trivial)
  loop span hhead hround c₀ := walks_loop span (hhead c₀) hround
  noClause _ _ _ := .pure () fun _ h => h
  clause _ hbody hrest c hafter hfork := by
    subst hfork
    have hboth := (decides_clause hafter (hbody c)).bind fun _ => hrest c hafter rfl
    simp only [bind_assoc] at hboth
    exact hboth
  switch span hm _ := walks_reserve_bind span fun after _ hafter => decides_clauses hafter
    fun c h => hm after c.current c h rfl

theorem walks_statements (ctx : BuildContext) (c₀ : Cursor) (stmts : List Stmt) :
    WalksBy c₀ (Stmt.allWellShaped ctx.arity stmts = true) (statements ctx stmts) :=
  (walksStatements ctx default).statements stmts .empty c₀

/-- **The statements of a block can be built exactly if they are well shaped.** -/
theorem walks_blockBody (ctx : BuildContext) (c₀ : Cursor) (b : Block) :
    WalksBy c₀ (Stmt.blockWellShaped ctx.arity b = true) (blockBody ctx b) :=
  (walksStatements ctx default).blockBody b .empty c₀

end Build

/-- The state in which the walk over a function begins. -/
def FunctionDecl.startState (f : FunctionDecl) : BuildState :=
  ⟨.start (some f.span), f.scopes.2⟩

theorem FunctionDecl.inside_startState (f : FunctionDecl) : f.startState.cursor.Inside :=
  Nat.zero_lt_one

/-- The graph of a function is what the walk over its body ends with. -/
theorem FunctionDecl.graph_eq (registry : Registry) (f : FunctionDecl) :
    f.graph registry = ((Build.blockBody ⟨registry, f.arity, f.scopes.1⟩ f.body).run
      f.startState).map (·.2.cursor.graph) := by
  show ((Build.blockBody ⟨registry, f.arity, f.scopes.1⟩ f.body).run f.startState >>=
    fun result => Except.ok result.2.cursor.graph) = _
  cases (Build.blockBody ⟨registry, f.arity, f.scopes.1⟩ f.body).run f.startState <;> rfl

/-- The graph of a well shaped function can be built; any other function is refused as input. -/
theorem FunctionDecl.graph_cases (registry : Registry) (f : FunctionDecl) :
    (f.wellShaped = true ∧ ∃ g, f.graph registry = .ok g) ∨
      f.wellShaped = false ∧ ∃ span fault, fault.ofTree = true ∧
        f.graph registry = .error (.input span fault) := by
  have hstart := Cursor.Extends.refl f.inside_startState
  have hwalk := Build.walks_blockBody ⟨registry, f.arity, f.scopes.1⟩ f.startState.cursor f.body
  rw [graph_eq]
  cases hshape : f.wellShaped with
  | true =>
      obtain ⟨_, s, hrun, -⟩ := hwalk.accepts hshape _ hstart
      rw [hrun]
      exact Or.inl ⟨rfl, s.cursor.graph, rfl⟩
  | false =>
      obtain ⟨span, fault, htree, hrun⟩ := hwalk.refuses (ne_true_of_eq_false hshape) _ hstart
      rw [hrun]
      exact Or.inr ⟨rfl, span, fault, htree, rfl⟩

/-- **Exactly the well shaped functions have a graph, whatever the registry.** Building it succeeds
if and only if the body is well shaped, and what fails, fails with an error about the tree: on the
way no point is ever joined to itself, no expression that is asked for a value gives none, and no
targets get another number of values than they have places. So success does not depend on which
functions are modelled. -/
theorem graph_accepts_exactly_wellShaped (f : FunctionDecl) :
    (∀ registry, ((∃ g, f.graph registry = .ok g) ↔ f.wellShaped = true) ∧
      ((∃ g, f.graph registry = .ok g) ∨
        ∃ span fault, fault.ofTree = true ∧ f.graph registry = .error (.input span fault))) ∧
    ∀ registry registry',
      (∃ g, f.graph registry = .ok g) ↔ ∃ g, f.graph registry' = .ok g := by
  have hiff : ∀ registry, (∃ g, f.graph registry = .ok g) ↔ f.wellShaped = true := by
    intro registry
    rcases f.graph_cases registry with ⟨hshape, hok⟩ | ⟨hshape, span, fault, -, herror⟩
    · exact ⟨fun _ => hshape, fun _ => hok⟩
    · rw [hshape, herror]
      constructor
      · rintro ⟨g, hg⟩
        cases hg
      · intro hshape
        cases hshape
  refine ⟨fun registry => ⟨hiff registry, ?_⟩, fun registry registry' => ?_⟩
  · exact (f.graph_cases registry).imp And.right And.right
  · exact (hiff registry).trans (hiff registry').symm

end SliceLineage
