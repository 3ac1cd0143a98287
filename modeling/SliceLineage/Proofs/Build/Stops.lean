import SliceLineage.Proofs.Build.Advance
import SliceLineage.Proofs.Build.Positions
import SliceLineage.Proofs.Build.StatementLogic

/-!
# Stops of the walk

The walk over a statement advances by the returns inside of it. On its way it comes to every
statement list inside of the statement; there it has advanced by some of the returns, the names in
scope are separate, and the rest of the returns is still to come.

* `Build.logsStatements`: the rules by which the walk over a statement advances by its returns.
* `Build.Stops`: a step comes to a list, walks over it, and goes on.
* `Build.Leads.stops`: the walk over statements stops at every list inside of them.
-/

namespace SliceLineage

namespace Build

variable {ctx : BuildContext} {n : Nat}

/-! ## Parts of statements -/

theorem logs_defineNames (span : Span) : ∀ (names : List (String × Composition)) (n : Nat),
    Logs ctx n [] (defineNames span names) anything
  | [], _ => .pure trivial
  | (name, c) :: rest, _ =>
      (logs_declare name).before fun _ _ _ _ => (logs_store _ c span).before fun _ n' _ _ =>
        logs_defineNames span rest n'

theorem logs_assignTargets (span : Span) : ∀ (targets : List (Expr × Composition)) (n : Nat),
    Logs ctx n [] (assignTargets ctx span targets) anything
  | [], _ => .pure trivial
  | (target, c) :: rest, n => by
      rw [assignTargets]
      refine (logs_evaluateOne ctx.registry target).before fun place n' _ _ => ?_
      split
      · exact (logs_store _ c span).before fun _ n'' _ _ => logs_assignTargets span rest n''
      · exact logs_assignTargets span rest n'

theorem logs_rangeBinding (define : Bool) (e : Option Expr) :
    Logs ctx n [] (rangeBinding ctx define e) anything := by
  unfold rangeBinding
  split
  · exact .pure trivial
  · refine .ite ?_ ?_
    · split
      · exact (logs_declare _).before fun _ _ _ _ => logs_copy _ _ _
      · exact .throw _
    · refine (logs_evaluateOne ctx.registry _).before fun place n' _ _ => ?_
      split
      · exact logs_copy _ _ _
      · exact .pure trivial

theorem logs_bindSubject (span : Span) : ∀ binding : Option (String × Composition),
    Logs ctx n [] (bindSubject span binding) anything
  | none => .pure trivial
  | some (name, subject) =>
      (logs_declare name).before fun _ _ _ _ => logs_store _ subject span

/-! ## Returns -/

/-- The results of a return are numbered one after the other, and only copies are recorded. -/
theorem exists_of_run_storeResults {span : Span} {cs : List Composition} :
    ∀ {s s' : BuildState} {values : List ValueId},
      (storeResults span cs).run s = .ok (values, s') →
      values = (List.range' s.scopes.allocated cs.length).map .tracked ∧
      s'.scopes = ⟨s.scopes.frames, s.scopes.allocated + cs.length⟩ ∧
      ∃ ops, (∀ op ∈ ops, Operation.isCopy op = true) ∧
        ∀ old, s.cursor.graph.Records old → s'.cursor.graph.Records (old ++ ops) := by
  induction cs with
  | nil =>
      intro s s' values h
      cases h
      exact ⟨rfl, rfl, [], by simp, by simp⟩
  | cons c cs ih =>
      intro s s' values h
      rw [storeResults] at h
      obtain ⟨v, s₁, hfresh, h⟩ := exists_of_run_bind h
      obtain ⟨_, s₂, hstore, h⟩ := exists_of_run_bind h
      obtain ⟨vs, s₃, hrest, h⟩ := exists_of_run_bind h
      cases h
      cases hfresh
      obtain ⟨hscopes, ops, hops, hrecords⟩ := copies_of_run_store hstore
      obtain ⟨rfl, hscopes', ops', hops', hrecords'⟩ := ih hrest
      have hsupply : s₂.scopes.allocated = s.scopes.allocated + 1 := by rw [hscopes]
      have hframes : s₂.scopes.frames = s.scopes.frames := by rw [hscopes]
      refine ⟨?_, ?_, ops ++ ops', fun op hop => ?_, fun old hold => ?_⟩
      · rw [hsupply, List.length_cons, List.range'_succ, List.map_cons]
      · rw [hscopes', hsupply, hframes, List.length_cons, Nat.add_right_comm, Nat.add_assoc]
      · exact (List.mem_append.mp hop).elim (hops op) (hops' op)
      · rw [← List.append_assoc]
        exact hrecords' _ (hrecords old hold)

/-- The end of a return: its values are recorded, and the walk goes on elsewhere. -/
theorem records_of_run_ret {values : List ValueId} {span : Span} {s s' : BuildState}
    (h : (do append (.ret values) span; detach : Build Unit).run s = .ok ((), s')) :
    s'.scopes = s.scopes ∧
      ∀ old, s.cursor.graph.Records old → s'.cursor.graph.Records (old ++ [.ret values]) := by
  cases h
  refine ⟨rfl, fun old hold => ?_⟩
  exact (Cursor.records_append hold (.ret values) (some span)).allocate none

/-- A return without results gives back the named results. -/
theorem logs_naked (span : Span) :
    Logs ctx n [[]] (do append (.ret ctx.namedResults) span; detach) anything := by
  intro s a s' _ hs hrun
  obtain ⟨hscopes, hrecords⟩ := records_of_run_ret hrun
  rw [hscopes]
  refine ⟨hs, ⟨[.ret ctx.namedResults], [], ?_⟩, trivial⟩
  refine ⟨Nat.le_of_eq (by rw [hscopes]), hrecords, ?_, rfl, .nil, by simp, ?_, ?_⟩
  · refine .cons ?_ .nil
    rw [BuildContext.Returns, if_pos rfl]
  · intro op hop
    rw [List.mem_singleton.mp hop]
    trivial
  · rw [hscopes]
    exact fun b hb => Or.inl hb

/-- A return with results gives each of them a value of its own. -/
theorem logs_results {results : List Expr} (hresults : results ≠ []) {cs : List Composition}
    (hcs : cs.length = ctx.arity) (span : Span) :
    Logs ctx n [results]
      (do
        let values ← storeResults span cs
        append (.ret values) span
        detach) anything := by
  intro s a s' _ hs hrun
  obtain ⟨values, s₁, hstore, hret⟩ := exists_of_run_bind hrun
  obtain ⟨rfl, hscopes, ops, hops, hrecords⟩ := exists_of_run_storeResults hstore
  obtain ⟨hscopes', hrecords'⟩ := records_of_run_ret hret
  rw [hscopes] at hscopes'
  rw [hscopes']
  refine ⟨hs.mono (Nat.le_add_right _ _), ⟨ops ++
    [.ret ((List.range' s.scopes.allocated cs.length).map .tracked)],
    List.range' s.scopes.allocated cs.length, ?_⟩, trivial⟩
  have hcount : (ops.filterMap Operation.returned?).length = ([] : List (List Expr)).length := by
    rw [returned?_of_isCopy hops]
    rfl
  refine ⟨?_, fun old hold => ?_, ?_, ?_, List.pairwise_lt_range', fun i hi => ?_,
    fun op hop => ?_, ?_⟩
  · rw [hscopes']
    exact Nat.le_add_right _ _
  · rw [← List.append_assoc]
    exact hrecords' _ (hrecords old hold)
  · rw [List.filterMap_append, returned?_of_isCopy hops]
    refine .cons ?_ .nil
    rw [BuildContext.Returns, if_neg hresults]
    simpa using hcs
  · have hsplit := temporaries_append ops
      [.ret ((List.range' s.scopes.allocated cs.length).map .tracked)] [results] [] hcount
    rw [List.nil_append] at hsplit
    rw [hsplit, temporaries_of_isCopy hops]
    simp [temporaries, hresults]
  · rw [hscopes']
    exact List.mem_range'_1.mp hi
  · rcases List.mem_append.mp hop with hop | hop
    · exact Operation.sparesOutputs_of_isCopy (hops op hop)
    · rw [List.mem_singleton.mp hop]
      trivial
  · rw [hscopes']
    exact fun b hb => Or.inl hb

theorem logs_returnWith (results : List Expr) (span : Span) :
    Logs ctx n [results] (returnWith ctx results span) anything := by
  unfold returnWith returnValues
  cases results with
  | nil => exact logs_naked span
  | cons e es =>
      rw [bind_assoc]
      exact (logs_evaluateValues ctx.registry span (e :: es) ctx.arity).before fun cs _ _ hcs =>
        logs_results (List.cons_ne_nil e es) hcs span

/-! ## Statements -/

/-- The way past the clauses of a switch. -/
theorem logs_leave (hasDefault : Bool) (after fork : PointId) :
    Logs ctx n []
      (do
        unless hasDefault do
          moveTo fork
          join after
        moveTo after) anything :=
  .ite (logs_moveTo after) <| (logs_moveTo fork).before fun _ _ _ _ =>
    (logs_join after).before fun _ _ _ _ => logs_moveTo after

/-- A switch from its clauses on. -/
theorem logs_switch {clauses : PointId → PointId → Build Unit} {hasDefault : Bool}
    {returns : List (List Expr)}
    (hclauses : ∀ after fork n, Logs ctx n returns (clauses after fork) anything) (span : Span)
    (n : Nat) :
    Logs ctx n returns
      (do
        let after ← reserve span
        let fork ← current
        clauses after fork
        unless hasDefault do
          moveTo fork
          join after
        moveTo after) anything :=
  (logs_reserve span).before fun after _ _ _ => logs_current.before fun fork n' _ _ =>
    (hclauses after fork n').followedBy fun _ _ _ _ => logs_leave _ after fork

/-- A loop after its initial statement. -/
theorem logs_loop {head round : Build Unit} {returns returns' : List (List Expr)}
    (hhead : ∀ n, Logs ctx n returns head anything)
    (hround : ∀ n, Logs ctx n returns' round anything) (span : Span) (n : Nat) :
    Logs ctx n (returns ++ returns')
      (do
        append .noop span
        let anchor ← current
        head
        let exit ← current
        round
        closeLoop anchor
        moveTo exit) anything := by
  refine (logs_noop span).before fun _ _ _ _ => logs_current.before fun anchor n₁ _ _ =>
    (hhead n₁).bind fun _ _ _ _ => logs_current.before fun exit n₂ _ _ => ?_
  exact (hround n₂).followedBy fun _ _ _ _ =>
    (logs_closeLoop anchor).before fun _ _ _ _ => logs_moveTo exit

/-- What comes before the body of an arm. -/
theorem logs_setup {init : Build Unit} {returns : List (List Expr)}
    (hinit : ∀ n, Logs ctx n returns init anything) (cond : Expr) (n : Nat) :
    Logs ctx n returns (do init; discard (evaluate ctx.registry cond 0)) anything :=
  (hinit n).followedBy fun _ n' _ _ => (logs_evaluate ctx.registry cond 0 n').discard

/-- The walk over statements advances by the returns that were read of them. -/
def logsStatements (ctx : BuildContext) (r : Renaming) : StatementLogic ctx ctx.registry r where
  judge k _ _ m _ := ∀ n, Logs ctx n k.returns m anything
  arms _ k _ _ m _ := ∀ n, Logs ctx n k.returns m anything
  clauses _ _ _ k _ _ m _ := ∀ n, Logs ctx n k.returns m anything
  idle _ := .pure trivial
  refuse _ _ _ _ _ _ := .throw _
  seq hm hn n := (hm n).bind fun _ n' _ _ => hn n'
  inFrame hm _ := logs_inFrame hm
  effect e n := (logs_evaluate ctx.registry e 0 n).discard
  define _ values span _ := (logs_evaluateValues ctx.registry span values _).before
    fun _ n' _ _ => logs_defineNames span _ n'
  assign _ values span _ := (logs_evaluateValues ctx.registry span values _).before
    fun _ n' _ _ => logs_assignTargets span _ n'
  ret results span _ := logs_returnWith results span
  rangeBinding define e _ := logs_rangeBinding define e
  subject e _ hm _ := (logs_evaluateOne ctx.registry e).before fun c n' _ _ => hm c n'
  bindSubject _ span _ _ := logs_bindSubject span _
  arm hsetup hbody hrest _ := (logs_arm _ hsetup hbody).bind fun _ n' _ _ => hrest n'
  lastArm hbody _ := logs_arm _ (fun _ => .pure trivial) hbody
  noArm _ := logs_join _
  refuseArm _ _ _ _ _ _ := .throw _
  branch span hm _ := (logs_reserve span).before fun after n' _ _ =>
    (hm after n').followedBy fun _ _ _ _ => logs_moveTo after
  loop span hhead hround := logs_loop hhead hround span
  noClause _ := .pure trivial
  clause _ hbody hrest _ := (logs_moveTo _).before fun _ n' _ _ =>
    (hbody n').bind fun _ _ _ _ => (logs_join _).before fun _ n'' _ _ => hrest n''
  switch span hm := logs_switch hm span

/-- **The walk over a statement advances by its returns.** -/
theorem logs_statement (stmt : Stmt) (n : Nat) :
    Logs ctx n stmt.returns (statement ctx stmt) anything :=
  (logsStatements ctx default).statement stmt .empty n

theorem logs_statements (stmts : List Stmt) (n : Nat) :
    Logs ctx n (Stmt.allReturns stmts) (statements ctx stmts) anything :=
  (logsStatements ctx default).statements stmts .empty n

theorem logs_statementFor (stmt : Option Stmt) (n : Nat) :
    Logs ctx n (Stmt.returnsIfAny stmt) (statementFor ctx stmt) anything :=
  (logsStatements ctx default).statementFor stmt .empty n

theorem logs_blockBody (b : Block) (n : Nat) :
    Logs ctx n (Stmt.blockReturns b) (blockBody ctx b) anything :=
  (logsStatements ctx default).blockBody b .empty n

theorem logs_elseArms (after : PointId) (branch : Option Stmt) (n : Nat) :
    Logs ctx n (Stmt.returnsIfAny branch) (elseArms ctx after branch) anything :=
  (logsStatements ctx default).elseArms after branch .empty n

theorem logs_switchClauses (binding : Option (String × Composition)) (after fork : PointId)
    (clauses : List CaseClause) (n : Nat) :
    Logs ctx n (Stmt.clausesReturns clauses) (switchClauses ctx binding after fork clauses)
      anything := by
  obtain ⟨_, _, _, _, h⟩ :=
    (logsStatements ctx default).exists_clauses binding after fork clauses
  exact h n

/-! ## Stops -/

/-- The step advances to the list by `enter`, walks over it, and advances to its end. -/
def Stops (ctx : BuildContext) (returns : List (List Expr)) (enter : Build Unit) (l : List Stmt)
    (m : Build Unit) : Prop :=
  ∀ s s', s.scopes.Separate → m.run s = .ok ((), s') →
    ∃ s₁ s₂ before after, enter.run s = .ok ((), s₁) ∧ (statements ctx l).run s₁ = .ok ((), s₂) ∧
      returns = before ++ (Stmt.allReturns l ++ after) ∧ Advances ctx before s s₁ ∧
      Advances ctx after s₂ s' ∧ s₁.scopes.Separate ∧ s'.scopes.Separate

namespace Stops

variable {returns returns' : List (List Expr)} {enter m : Build Unit} {l : List Stmt} {α : Type}

theorem here (ctx : BuildContext) (l : List Stmt) :
    Stops ctx (Stmt.allReturns l) (return) l (statements ctx l) := by
  intro s s' hs hrun
  obtain ⟨hs', -, -⟩ := logs_statements l _ s () s' rfl hs hrun
  exact ⟨s, s', [], [], rfl, hrun, by simp, .refl s, .refl s', hs, hs'⟩

/-- A statement that stands alone. -/
theorem single (ctx : BuildContext) (stmt : Stmt) :
    Stops ctx stmt.returns (return) [stmt] (statement ctx stmt) := by
  have hsingle := here ctx [stmt]
  rwa [statements, statements, bind_pure_unit, Stmt.allReturns, Stmt.allReturns,
    List.append_nil] at hsingle

theorem bind (h : Stops ctx returns enter l m) {k : Build Unit}
    (hk : ∀ n, Logs ctx n returns' k anything) :
    Stops ctx (returns ++ returns') enter l (do m; k) := by
  intro s s' hs hrun
  obtain ⟨_, s₀, hrun, hk'⟩ := exists_of_run_bind hrun
  obtain ⟨s₁, s₂, before, after, henter, hl, rfl, hbefore, hafter, hs₁, hs₀⟩ := h s s₀ hs hrun
  obtain ⟨hs', hrest, -⟩ := hk _ s₀ () s' rfl hs₀ hk'
  exact ⟨s₁, s₂, before, after ++ returns', henter, hl, by simp, hbefore, hafter.trans hrest,
    hs₁, hs'⟩

/-- A step without returns after the list. -/
theorem followedBy (h : Stops ctx returns enter l m) {k : Build Unit}
    (hk : ∀ n, Logs ctx n [] k anything) : Stops ctx returns enter l (do m; k) := by
  have hboth := h.bind hk
  rwa [List.append_nil] at hboth

theorem precededBy {step : Build α} {enter m : α → Build Unit}
    (hstep : ∀ n, Logs ctx n returns step anything)
    (h : ∀ a, Stops ctx returns' (enter a) l (m a)) :
    Stops ctx (returns ++ returns') (step >>= enter) l (step >>= m) := by
  intro s s' hs hrun
  obtain ⟨a, s₀, hfirst, hrun⟩ := exists_of_run_bind hrun
  obtain ⟨hs₀, hstart, -⟩ := hstep _ s a s₀ rfl hs hfirst
  obtain ⟨s₁, s₂, before, after, henter, hl, rfl, hbefore, hrest⟩ := h a s₀ s' hs₀ hrun
  exact ⟨s₁, s₂, returns ++ before, after, (run_bind_of_ok hfirst).trans henter, hl, by simp,
    hstart.trans hbefore, hrest⟩

/-- A step without returns before the list. -/
theorem preparedBy {step : Build α} {enter m : α → Build Unit}
    (hstep : ∀ n, Logs ctx n [] step anything) (h : ∀ a, Stops ctx returns (enter a) l (m a)) :
    Stops ctx returns (step >>= enter) l (step >>= m) := precededBy hstep h

/-- The walk looks where it is, which does not matter for the way to the list. -/
theorem here_current {m : PointId → Build Unit} (h : ∀ fork, Stops ctx returns enter l (m fork)) :
    Stops ctx returns enter l (Build.current >>= m) :=
  fun s s' hs hrun => h s.cursor.current s s' hs hrun

theorem inFrame (h : Stops ctx returns enter l m) :
    Stops ctx returns (do push; enter) l (Build.inFrame m) :=
  preparedBy (fun _ => logs_push) fun _ => h.followedBy fun _ => logs_pop

/-- A list inside of a list. -/
theorem trans {outer : Build Unit} {part : List Stmt} (h : Stops ctx returns outer part m)
    (h' : Stops ctx (Stmt.allReturns part) enter l (statements ctx part)) :
    Stops ctx returns (do outer; enter) l m := by
  intro s s' hs hrun
  obtain ⟨s₁, s₂, before, after, houter, hpart, rfl, hbefore, hafter, hs₁, hs'⟩ := h s s' hs hrun
  obtain ⟨s₃, s₄, before', after', henter, hl, hreturns, hbefore', hafter', hs₃, -⟩ :=
    h' s₁ s₂ hs₁ hpart
  refine ⟨s₃, s₄, before ++ before', after' ++ after, (run_bind_of_ok houter).trans henter, hl, ?_,
    hbefore.trans hbefore', hafter'.trans hafter, hs₃, hs'⟩
  rw [hreturns]
  simp

theorem setup_arm (after : PointId) {body : Build Unit} (h : Stops ctx returns enter l m)
    (hbody : ∀ n, Logs ctx n returns' body anything) :
    Stops ctx (returns ++ returns') enter l (arm after m body) :=
  h.bind fun _ => logs_current.before fun fork n _ _ => (hbody n).followedBy fun _ _ _ _ =>
    (logs_join after).before fun _ _ _ _ => logs_moveTo fork

theorem body_arm (after : PointId) {setup : Build Unit}
    (hsetup : ∀ n, Logs ctx n returns setup anything) (h : Stops ctx returns' enter l m) :
    Stops ctx (returns ++ returns') (do setup; enter) l (arm after setup m) :=
  precededBy hsetup fun _ => here_current fun fork => h.followedBy fun _ =>
    (logs_join after).before fun _ _ _ _ => logs_moveTo fork

end Stops

/-! ## The walk stops at the lists of a statement -/

variable {stmt : Stmt} {enter : Build Unit} {l : List Stmt}

theorem stops_blockBody (ctx : BuildContext) (b : Block) :
    Stops ctx (Stmt.blockReturns b) push b.stmts (blockBody ctx b) := by
  obtain ⟨stmts, span⟩ := b
  rw [blockBody, Stmt.blockReturns]
  have hframe := (Stops.here ctx stmts).inFrame
  rwa [bind_pure_unit] at hframe

theorem ElsePart.stops {branch : Option Stmt} {enter : PointId → Build Unit}
    (h : ElsePart ctx branch enter l) (after : PointId) :
    Stops ctx (Stmt.returnsIfAny branch) (enter after) l (elseArms ctx after branch) := by
  induction h with
  | @init init cond thenBlock elseBranch span =>
      rw [elseArms, statementFor, Stmt.returnsIfAny, Stmt.returns, Stmt.returnsIfAny,
        ← List.append_assoc]
      have hsetup := (Stops.single ctx init).followedBy fun n =>
        (logs_evaluate ctx.registry cond 0 n).discard
      exact (hsetup.setup_arm after (logs_blockBody thenBlock)).bind
        (logs_elseArms after elseBranch)
  | @thenBlock init cond thenBlock elseBranch span =>
      rw [elseArms, Stmt.returnsIfAny, Stmt.returns, ← List.append_assoc]
      have harm := (stops_blockBody ctx thenBlock).body_arm after
        (logs_setup (logs_statementFor init) cond)
      simp only [bind_assoc] at harm
      exact harm.bind (logs_elseArms after elseBranch)
  | @elseBranch init cond thenBlock elseBranch span enter l _ ih =>
      rw [elseArms, Stmt.returnsIfAny, Stmt.returns, ← List.append_assoc]
      exact .precededBy (fun _ => logs_arm after (logs_setup (logs_statementFor init) cond)
        (logs_blockBody thenBlock)) fun _ => ih
  | @last body span =>
      rw [elseArms, Stmt.returnsIfAny, Stmt.returns]
      have hnone : ∀ n, Logs ctx n [] (return : Build Unit) anything :=
        fun _ => .pure trivial
      exact (stops_blockBody ctx body).body_arm after hnone

theorem ClausePart.stops {clauses : List CaseClause}
    {enter : Option (String × Composition) → PointId → PointId → Build Unit}
    (h : ClausePart ctx clauses enter l) (binding : Option (String × Composition))
    (after fork : PointId) :
    Stops ctx (Stmt.clausesReturns clauses) (enter binding after fork) l
      (switchClauses ctx binding after fork clauses) := by
  induction h with
  | @head exprs body span rest =>
      rw [switchClauses, Stmt.clausesReturns]
      have hbody := Stops.inFrame <| Stops.preparedBy (fun _ => logs_bindSubject span binding)
        fun _ => Stops.here ctx body
      rw [bind_pure_unit] at hbody
      exact .preparedBy (fun _ => logs_moveTo fork) fun _ => hbody.bind fun _ =>
        (logs_join after).before fun _ n _ _ => logs_switchClauses binding after fork rest n
  | @tail clause rest enter l _ ih =>
      have hrest := Stops.precededBy (logs_switchClauses binding after fork [clause]) fun _ => ih
      obtain ⟨exprs, body, span⟩ := clause
      simp only [switchClauses, Stmt.clausesReturns, List.append_nil, bind_assoc, pure_bind]
        at hrest ⊢
      exact hrest

/-- The clauses of a switch, with the way past them. -/
theorem ClausePart.stops_switch {clauses : List CaseClause}
    {enter : Option (String × Composition) → PointId → PointId → Build Unit}
    (h : ClausePart ctx clauses enter l) (binding : Option (String × Composition))
    (hasDefault : Bool) (span : Span) :
    Stops ctx (Stmt.clausesReturns clauses)
      (do
        let after ← reserve span
        let fork ← current
        enter binding after fork)
      l
      (do
        let after ← reserve span
        let fork ← current
        switchClauses ctx binding after fork clauses
        unless hasDefault do
          moveTo fork
          join after
        moveTo after) :=
  .preparedBy (fun _ => logs_reserve span) fun after => .preparedBy (fun _ => logs_current)
    fun fork => (h.stops binding after fork).followedBy fun _ => logs_leave hasDefault after fork

/-- The initial statement of a loop or switch. -/
theorem stops_init (init : Stmt) {returns : List (List Expr)} {m : Build Unit}
    (hm : ∀ n, Logs ctx n returns m anything) :
    Stops ctx (Stmt.returnsIfAny (some init) ++ returns) push [init]
      (inFrame do statementFor ctx (some init); m) := by
  rw [statementFor, Stmt.returnsIfAny]
  have hframe := ((Stops.single ctx init).bind hm).inFrame
  rwa [bind_pure_unit] at hframe

/-- A round of a `for` loop. -/
theorem stops_forLoop {init : Option Stmt} {cond : Option Expr} {post : Option Stmt} {body : Block}
    {span : Span} (h : Stops ctx (Stmt.blockReturns body ++ Stmt.returnsIfAny post) enter l
      (do blockBody ctx body; statementFor ctx post)) :
    Stops ctx (Stmt.returns (.forLoop init cond post body span))
      (do
        push
        statementFor ctx init
        append .noop span
        evaluateFor ctx.registry cond
        enter)
      l (statement ctx (.forLoop init cond post body span)) := by
  rw [statement, Stmt.returns]
  refine .inFrame <| .precededBy (logs_statementFor init) fun _ =>
    .preparedBy (fun _ => logs_noop span) fun _ => .here_current fun anchor =>
    .preparedBy (logs_evaluateFor ctx.registry cond) fun _ => .here_current fun exit => ?_
  have hround := h.followedBy fun _ =>
    (logs_closeLoop anchor).before fun _ _ _ _ => logs_moveTo exit
  rwa [bind_assoc] at hround

/-- **The walk over a statement stops at every list directly inside of it.** -/
theorem Part.stops (h : Part ctx stmt enter l) :
    Stops ctx stmt.returns enter l (statement ctx stmt) := by
  cases h with
  | @block body span =>
      rw [statement, Stmt.returns]
      exact stops_blockBody ctx body
  | @labeled label stmt span =>
      rw [statement, Stmt.returns]
      exact .single ctx stmt
  | @arms init cond thenBlock elseBranch span enter l h =>
      have harms : Stops ctx (Stmt.returns (.ifElse init cond thenBlock elseBranch span))
          (do push; let after ← reserve span; enter after) l
          (inFrame do
            let after ← reserve span
            elseArms ctx after (some (.ifElse init cond thenBlock elseBranch span))
            moveTo after) :=
        .inFrame <| .preparedBy (fun _ => logs_reserve span) fun after =>
          (h.stops after).followedBy fun _ => logs_moveTo after
      simp only [elseArms, bind_assoc] at harms
      rw [statement]
      split
      · intro s s' _ hrun
        cases hrun
      · exact harms
  | @forInit init cond post body span =>
      rw [statement, Stmt.returns]
      have hround : ∀ n, Logs ctx n (Stmt.blockReturns body ++ Stmt.returnsIfAny post)
          (do blockBody ctx body; statementFor ctx post) anything :=
        fun n => (logs_blockBody body n).bind fun _ n' _ _ => logs_statementFor post n'
      have hrounds := logs_loop (logs_evaluateFor ctx.registry cond) hround span
      simp only [bind_assoc] at hrounds
      exact stops_init init hrounds
  | @forBody init cond post body span =>
      exact stops_forLoop ((stops_blockBody ctx body).bind (logs_statementFor post))
  | @forPost init cond post body span =>
      have hpost : Stops ctx (Stmt.blockReturns body ++ Stmt.returnsIfAny (some post))
          (do blockBody ctx body; return) [post]
          (do blockBody ctx body; statementFor ctx (some post)) :=
        .precededBy (logs_blockBody body) fun _ => by
          rw [statementFor, Stmt.returnsIfAny]
          exact .single ctx post
      rw [bind_pure_unit] at hpost
      exact stops_forLoop hpost
  | @rangeBody key value define subject body span =>
      rw [statement, Stmt.returns]
      refine .preparedBy (fun n => (logs_evaluate ctx.registry subject 0 n).discard) fun _ =>
        .inFrame <| .preparedBy (fun _ => logs_noop span) fun _ => .here_current fun anchor => ?_
      refine .preparedBy (fun _ => logs_rangeBinding define key) fun _ =>
        .preparedBy (fun _ => logs_rangeBinding define value) fun _ => ?_
      exact (stops_blockBody ctx body).followedBy fun _ =>
        (logs_closeLoop anchor).before fun _ _ _ _ => logs_moveTo anchor
  | @switchInit init tag clauses span =>
      rw [statement, Stmt.returns]
      exact stops_init init fun n => (logs_evaluateFor ctx.registry tag n).before fun _ n' _ _ =>
        logs_switch (fun after fork => logs_switchClauses none after fork clauses) span n'
  | @clauses init tag clauses span enter l h =>
      rw [statement, Stmt.returns]
      exact .inFrame <| .precededBy (logs_statementFor init) fun _ =>
        .preparedBy (logs_evaluateFor ctx.registry tag) fun _ => h.stops_switch _ _ span
  | @typeInit init binding subject clauses span =>
      rw [statement, Stmt.returns]
      exact stops_init init fun n => (logs_evaluateOne ctx.registry subject).before
        fun c n' _ _ =>
          logs_switch (fun after fork => logs_switchClauses _ after fork clauses) span n'
  | @typeClauses init binding subject clauses span enter l h =>
      rw [statement, Stmt.returns]
      exact .inFrame <| .precededBy (logs_statementFor init) fun _ =>
        .preparedBy (fun _ => logs_evaluateOne ctx.registry subject) fun c =>
          h.stops_switch _ _ span

/-- **The walk over a list stops at every list inside of it, at any depth.** -/
theorem Leads.stops {body : List Stmt} (h : Leads ctx body enter l) :
    Stops ctx (Stmt.allReturns body) enter l (statements ctx body) := by
  induction h with
  | here l => exact .here ctx l
  | next stmt _ ih =>
      rw [statements, Stmt.allReturns]
      exact .precededBy (logs_statement stmt) fun _ => ih
  | inside rest hpart _ ih =>
      rw [statements, Stmt.allReturns]
      exact (hpart.stops.trans ih).bind (logs_statements rest)

end Build

end SliceLineage
