import SliceLineage.Build.Stmt
import SliceLineage.Proofs.Source.Readings

/-!
# Logics of the walk over statements

As with expressions, whatever is proved about the walk over statements goes by the same recursion.
It is done here, once for all judgements that have a rule for each way in which the walk goes on:
one part after another, parts in a frame of their own, the arms of an if statement, loops, and the
clauses of a switch. What each simple statement does is a rule of its own.

* `StatementLogic`: a judgement about parts of the walk, with its rules.
* `StatementLogic.statement`: the walk over a statement as every logic judges it, one case for each
  construct; `statements`, `blockBody` and the others go with it.
-/

namespace SliceLineage

/-! ## Shapes and renaming -/

namespace Stmt

variable (r : Renaming)

theorem span_rename (s : Stmt) (ns : Names) : (s.rename r ns).span = s.span := by
  cases s <;> rw [rename] <;> rfl

theorem brokenElse?_rename : ∀ (s : Stmt) (ns : Names), (s.rename r ns).brokenElse? = s.brokenElse?
  | .ifElse _ _ _ none _, ns => by
      rw [rename, renameIfAny]
      rfl
  | .ifElse init cond thenBlock (some branch) span, ns => by
      have ih := brokenElse?_rename branch
        (thenBlock.scan ((scanIfAny init ns).use [cond]))
      have hspan := span_rename r branch (thenBlock.scan ((scanIfAny init ns).use [cond]))
      rw [rename, renameIfAny]
      cases branch with
      | ifElse =>
          rw [rename] at ih ⊢
          exact ih
      | block =>
          rw [rename]
          rfl
      | _ =>
          rw [rename] at hspan ⊢
          exact congrArg some hspan
  | .block .., _ | .labeled .., _ | .forLoop .., _ | .range .., _ | .define .., _ | .assign .., _
  | .switch .., _ | .typeSwitch .., _ | .ret .., _ | .expr .., _ | .skipped .., _ | .bad .., _ => by
      rw [rename] <;> rfl

end Stmt

/-- The same function with other modelled functions. -/
abbrev BuildContext.over (ctx : BuildContext) (registry : Registry) : BuildContext :=
  { ctx with registry := registry }

theorem CaseClause.any_isDefault_rename (r : Renaming) (d : Option (String × Nat))
    (clauses : List CaseClause) (ns : Names) :
    (CaseClause.renameEach r d clauses ns).any CaseClause.isDefault =
      clauses.any CaseClause.isDefault := by
  induction clauses generalizing ns with
  | nil => rw [CaseClause.renameEach]
  | cons clause rest ih =>
      obtain ⟨exprs, body, span⟩ := clause
      rw [CaseClause.renameEach, List.any_cons, List.any_cons, ih]
      simp [CaseClause.isDefault]

/-- A broken chain of if statements is not well shaped. -/
theorem Stmt.wellShaped_of_brokenElse? (arity : Nat) {broken : Span} :
    ∀ s : Stmt, s.brokenElse? = some broken → s.wellShaped arity = false
  | .ifElse init cond thenBlock (some branch) span, h => by
      have helse : Stmt.elseWellShaped arity (some branch) = false := by
        match branch with
        | .ifElse init cond thenBlock elseBranch span =>
            rw [Stmt.brokenElse?] at h
            rw [Stmt.elseWellShaped, Stmt.wellShaped_of_brokenElse? arity _ h, Bool.and_false]
        | .block .. => cases h
        | .labeled .. | .forLoop .. | .range .. | .define .. | .assign .. | .switch ..
        | .typeSwitch .. | .ret .. | .expr .. | .skipped .. | .bad .. =>
            simp [Stmt.elseWellShaped, Stmt.isElseBranch]
      rw [Stmt.wellShaped, helse, Bool.and_false]
  | .ifElse _ _ _ none _, h => by cases h
  | .block .., h | .labeled .., h | .forLoop .., h | .range .., h | .define .., h | .assign .., h
  | .switch .., h | .typeSwitch .., h | .ret .., h | .expr .., h | .skipped .., h | .bad .., h => by
      cases h

theorem Names.use_nil (ns : Names) : ns.use [] = ns := by
  simp [use]

/-! ## Logics -/

/-- Some renaming, for judgements that leave renamed statements out of account. -/
instance : Inhabited Renaming := ⟨⟨0, ""⟩⟩

open Build

/-- Judgements about steps of the walk over statements, with the rules that the recursion on
statements needs. Steps come in pairs, of which the second one walks over renamed statements with
other modelled functions; they take the names declared before them to those declared after them. A
judgement about one step leaves the second one out of account. -/
structure StatementLogic (ctx : BuildContext) (registry' : Registry) (r : Renaming) where
  /-- The steps walk over what the reading says. -/
  judge : Stmt.Reading → Names → Names → Build Unit → Build Unit → Prop
  /-- The steps walk over the arms of an if statement that are left, and join the point after it. -/
  arms : PointId → Stmt.Reading → Names → Names → Build Unit → Build Unit → Prop
  /-- The steps walk over the clauses of a switch that are left, of which one may be the default
  clause; each begins at the second point and joins the first one. -/
  clauses : PointId → PointId → Bool → Stmt.Reading → Names → Names → Build Unit → Build Unit →
    Prop
  idle : ∀ {ns : Names}, judge .nothing ns ns (pure ()) (pure ())
  refuse : ∀ {k : Stmt.Reading} {ns ns' : Names} (span : Span) {fault : InputFault},
    ns.Grows ns' → fault.ofTree = true → ¬ k.fits →
    judge k ns ns' (throw (.input span fault)) (throw (.input span fault))
  seq : ∀ {k k' : Stmt.Reading} {ns ns₁ ns₂ : Names} {m m' n n' : Build Unit},
    judge k ns ns₁ m m' → judge k' ns₁ ns₂ n n' → judge (k ++ k') ns ns₂ (do m; n) (do m'; n')
  inFrame : ∀ {k : Stmt.Reading} {ns ns₁ : Names} {m m' : Build Unit},
    judge k ns ns₁ m m' → judge k ns (ns₁.leave ns) (inFrame m) (inFrame m')
  effect : ∀ {ns : Names} (e : Expr),
    judge (.of (e.wellShaped = true) (ns.growths [e])) ns (ns.use [e])
      (discard (evaluate ctx.registry e 0)) (discard (evaluate registry' (r.expr ns e) 0))
  define : ∀ {ns : Names} (names : List String) (values : List Expr) (span : Span),
    judge (.of (Expr.allWellShaped values = true ∧ Expr.fitTargets values names.length = true)
        (ns.growths values)) ns ((ns.use values).declareAll names)
      (do
        let cs ← evaluateValues ctx.registry span values names.length
        defineNames span (names.zip cs))
      (do
        let cs ← evaluateValues registry' span (values.map (r.expr ns)) names.length
        defineNames span ((r.binders (ns.use values) names).zip cs))
  assign : ∀ {ns : Names} (targets values : List Expr) (span : Span),
    judge (.of ((Expr.allWellShaped values = true ∧
          Expr.fitTargets values targets.length = true) ∧ Expr.allWellShaped targets = true)
        (ns.growths values ++ ns.growths targets)) ns (ns.use (targets ++ values))
      (do
        let cs ← evaluateValues ctx.registry span values targets.length
        assignTargets ctx span (targets.zip cs))
      (do
        let cs ← evaluateValues registry' span (values.map (r.expr ns)) targets.length
        assignTargets (ctx.over registry') span ((targets.map (r.expr ns)).zip cs))
  ret : ∀ {ns : Names} (results : List Expr) (span : Span),
    judge ⟨Expr.allWellShaped results = true ∧ Expr.fitTargets results ctx.arity = true, true,
        [results], ns.growths results⟩ ns (ns.use results) (returnWith ctx results span)
      (returnWith (ctx.over registry') (results.map (r.expr ns)) span)
  rangeBinding : ∀ {ns : Names} (define : Bool) (e : Option Expr),
    judge (.of (Expr.rangeVariable define e = true) (ns.rangeGrowths define e)) ns
      (ns.rangeVariable define e) (rangeBinding ctx define e)
      (rangeBinding (ctx.over registry') define (r.rangeVariable ns define e))
  /-- The subject of a type switch, which comes with the variable that the clauses may declare. -/
  subject : ∀ {k : Stmt.Reading} {ns ns₁ : Names} {m m' : Composition → Build Unit} (e : Expr)
    (d : Option (String × Nat)),
    (∀ c, judge k ((ns.use [e]).record d) ns₁ (m c) (m' c)) →
    judge (.of (e.wellShaped = true) (ns.growths [e]) ++ k) ns ns₁
      (evaluateOne ctx.registry e >>= m) (evaluateOne registry' (r.expr ns e) >>= m')
  bindSubject : ∀ {ns outer : Names} {binding : Option String} (c : Composition) (span : Span),
    (∀ d ∈ binding.bind outer.next?, ns.Declares d) →
    judge .nothing ns (ns.bring (binding.bind outer.next?))
      (bindSubject span (binding.map (·, c)))
      (bindSubject span ((binding.map (r.binder outer)).map (·, c)))
  arm : ∀ {after : PointId} {k k' k'' : Stmt.Reading} {ns ns₁ ns₂ ns₃ : Names}
    {setup setup' body body' rest rest' : Build Unit}, judge k ns ns₁ setup setup' →
    judge k' ns₁ ns₂ body body' → arms after k'' ns₂ ns₃ rest rest' →
    arms after (k ++ k' ++ k'') ns ns₃ (do arm after setup body; rest)
      (do arm after setup' body'; rest')
  lastArm : ∀ {after : PointId} {k : Stmt.Reading} {ns ns₁ : Names} {body body' : Build Unit},
    judge k ns ns₁ body body' →
    arms after k ns ns₁ (Build.arm after (return) body) (Build.arm after (return) body')
  noArm : ∀ {after : PointId} {ns : Names}, arms after .nothing ns ns (join after) (join after)
  refuseArm : ∀ {after : PointId} {k : Stmt.Reading} {ns ns' : Names} (span : Span)
    {fault : InputFault}, ns.Grows ns' → fault.ofTree = true → ¬ k.fits →
    arms after k ns ns' (throw (.input span fault)) (throw (.input span fault))
  branch : ∀ {k : Stmt.Reading} {ns ns₁ : Names} {m m' : PointId → Build Unit} (span : Span),
    (∀ after, arms after k ns ns₁ (m after) (m' after)) →
    judge k ns ns₁ (do let after ← reserve span; m after; moveTo after)
      (do let after ← reserve span; m' after; moveTo after)
  loop : ∀ {k k' : Stmt.Reading} {ns ns₁ ns₂ : Names} {head head' round round' : Build Unit}
    (span : Span), judge k ns ns₁ head head' → judge k' ns₁ ns₂ round round' →
    judge (k ++ k').looping ns ns₂
      (do
        append .noop span
        let anchor ← current
        head
        let exit ← current
        round
        closeLoop anchor
        moveTo exit)
      (do
        append .noop span
        let anchor ← current
        head'
        let exit ← current
        round'
        closeLoop anchor
        moveTo exit)
  noClause : ∀ {after fork : PointId} {ns : Names},
    clauses after fork false .nothing ns ns (pure ()) (pure ())
  clause : ∀ {after fork : PointId} {hasDefault : Bool} {k k' : Stmt.Reading}
    {ns ns₁ ns₂ : Names} {exprs : List Expr} {body body' rest rest' : Build Unit}
    (isDefault : Bool), judge k (ns.use exprs) ns₁ body body' →
    clauses after fork hasDefault k' ns₁ ns₂ rest rest' →
    clauses after fork (isDefault || hasDefault) (k ++ k') ns ns₂
      (do moveTo fork; body; join after; rest) (do moveTo fork; body'; join after; rest')
  switch : ∀ {hasDefault : Bool} {k : Stmt.Reading} {ns ns₁ : Names}
    {m m' : PointId → PointId → Build Unit} (span : Span),
    (∀ after fork, clauses after fork hasDefault k ns ns₁ (m after fork) (m' after fork)) →
    judge k ns ns₁
      (do
        let after ← reserve span
        let fork ← current
        m after fork
        unless hasDefault do
          moveTo fork
          join after
        moveTo after)
      (do
        let after ← reserve span
        let fork ← current
        m' after fork
        unless hasDefault do
          moveTo fork
          join after
        moveTo after)

namespace StatementLogic

variable {ctx : BuildContext} {registry' : Registry} {r : Renaming}
  (L : StatementLogic ctx registry' r) {k k' : Stmt.Reading} {ns ns₁ ns₂ : Names}
  {m m' : Build Unit}

theorem of_eq (h : L.judge k ns ns₁ m m') (hk : k' = k) : L.judge k' ns ns₁ m m' := hk ▸ h

theorem effectIfAny (e : Option Expr) :
    L.judge (.of (Expr.wellShapedIfAny e = true) (ns.growths e.toList)) ns (ns.use e.toList)
      (evaluateFor ctx.registry e) (evaluateFor registry' (e.map (r.expr ns))) := by
  cases e with
  | none =>
      rw [Option.toList_none, Names.use_nil, Option.map_none, evaluateFor, evaluateFor]
      refine L.of_eq L.idle ?_
      simp [Expr.wellShapedIfAny, Names.growths]
  | some e =>
      rw [Option.map_some, evaluateFor, evaluateFor]
      refine L.of_eq (L.effect e) ?_
      simp [Expr.wellShapedIfAny]

/-- What comes before the body of an arm. -/
theorem setup {init init' : Build Unit} (hinit : L.judge k ns ns₁ init init') (cond : Expr) :
    L.judge (k ++ .of (cond.wellShaped = true) (ns₁.growths [cond])) ns (ns₁.use [cond])
      (do init; discard (evaluate ctx.registry cond 0))
      (do init'; discard (evaluate registry' (r.expr ns₁ cond) 0)) :=
  L.seq hinit (L.effect cond)

/-! ## Statements -/

mutual

/-- **The walk over a statement, as every logic judges it.** -/
theorem statement : ∀ (s : Stmt) (ns : Names),
    L.judge (s.reading ctx.arity ns) ns (s.scan ns) (statement ctx s)
      (statement (ctx.over registry') (s.rename r ns))
  | .block body _, ns => by
      rw [Stmt.scan, Stmt.rename, Build.statement, Build.statement]
      refine L.of_eq (blockBody body ns) ?_
      simp [Stmt.reading, Block.reading, Stmt.wellShaped, Stmt.loopFree, Stmt.returns, Stmt.growths]
  | .labeled _ stmt _, ns => by
      rw [Stmt.scan, Stmt.rename, Build.statement, Build.statement]
      refine L.of_eq (statement stmt ns) ?_
      simp [Stmt.reading, Stmt.wellShaped, Stmt.loopFree, Stmt.returns, Stmt.growths]
  | .ifElse init cond thenBlock elseBranch span, ns => by
      have hbroken := Stmt.brokenElse?_rename r (.ifElse init cond thenBlock elseBranch span) ns
      rw [Stmt.rename] at hbroken
      rw [Stmt.scan, Stmt.rename, Build.statement, Build.statement, hbroken]
      split
      · rename_i broken hsome
        have hscan := Stmt.grows_scan (.ifElse init cond thenBlock elseBranch span) ns
        rw [Stmt.scan] at hscan
        exact L.refuse broken hscan rfl (by
          simp [Stmt.reading, Stmt.wellShaped_of_brokenElse? ctx.arity _ hsome])
      · have h := L.inFrame (L.branch span fun after => L.arm
          (L.setup (statementFor init ns) cond) (blockBody thenBlock _)
          (elseArms after elseBranch _))
        simp only [bind_assoc] at h
        refine L.of_eq h ?_
        simp [Stmt.reading, Stmt.readingIfAny, Block.reading, Stmt.readingElse, Stmt.wellShaped,
          Stmt.loopFree, Stmt.returns, Stmt.growths, and_assoc]
  | .forLoop init cond post body span, ns => by
      rw [Stmt.scan, Stmt.rename, Build.statement, Build.statement]
      have h := L.inFrame (L.seq (statementFor init ns) (L.loop span (L.effectIfAny cond)
        (L.seq (blockBody body _) (statementFor post _))))
      simp only [bind_assoc] at h
      refine L.of_eq h ?_
      simp [Stmt.reading, Stmt.readingIfAny, Block.reading, Stmt.wellShaped,
          Stmt.loopFree, Stmt.returns, Stmt.growths, and_assoc]
  | .range key value define subject body span, ns => by
      rw [Stmt.scan, Stmt.rename, Build.statement, Build.statement]
      have hsubject : L.judge _ ns (ns.use [subject]) _ _ := L.effect subject
      have hrounds := L.seq hsubject (L.inFrame (L.loop span L.idle
        (L.seq (L.rangeBinding define key)
          (L.seq (L.rangeBinding define value) (blockBody body _)))))
      simp only [bind_assoc, pure_bind] at hrounds
      refine L.of_eq hrounds ?_
      simp [Stmt.reading, Block.reading, Stmt.wellShaped,
          Stmt.loopFree, Stmt.returns, Stmt.growths, and_assoc]
  | .define names values span, ns => by
      rw [Stmt.scan, Stmt.rename, Build.statement, Build.statement, Renaming.length_binders]
      refine L.of_eq (L.define names values span) ?_
      simp [Stmt.reading, Stmt.wellShaped, Stmt.loopFree, Stmt.returns, Stmt.growths]
  | .assign targets values span, ns => by
      rw [Stmt.scan, Stmt.rename, Build.statement, Build.statement, List.length_map]
      refine L.of_eq (L.assign targets values span) ?_
      simp [Stmt.reading, Stmt.wellShaped, Stmt.loopFree, Stmt.returns, Stmt.growths]
  | .switch init tag clauses span, ns => by
      rw [Stmt.scan, Stmt.rename, Build.statement, Build.statement, CaseClause.any_isDefault_rename]
      refine L.of_eq (L.inFrame (L.seq (statementFor init ns) (L.seq (L.effectIfAny tag)
        (L.switch span fun after fork =>
          switchClauses .blank ns none after fork clauses _ (by simp))))) ?_
      simp [Stmt.reading, Stmt.readingIfAny, CaseClause.readingOfEach, Stmt.wellShaped,
        Stmt.loopFree, Stmt.returns, Stmt.growths, and_assoc]
  | .typeSwitch init binding subject clauses span, ns => by
      rw [Stmt.scan, Stmt.rename, Build.statement, Build.statement, CaseClause.any_isDefault_rename]
      refine L.of_eq (L.inFrame (L.seq (statementFor init ns) (L.subject subject _ fun c =>
        L.switch span fun after fork => switchClauses c _ binding after fork clauses _
          (Names.declares_record_bind ((Stmt.scanIfAny init ns).use [subject]) binding)))) ?_
      simp [Stmt.reading, Stmt.readingIfAny, CaseClause.readingOfEach, Stmt.wellShaped,
        Stmt.loopFree, Stmt.returns, Stmt.growths, and_assoc]
  | .ret results span, ns => by
      rw [Stmt.scan, Stmt.rename, Build.statement, Build.statement]
      refine L.of_eq (L.ret results span) ?_
      simp [Stmt.reading, Stmt.wellShaped, Stmt.loopFree, Stmt.returns, Stmt.growths]
  | .expr e _, ns => by
      rw [Stmt.scan, Stmt.rename, Build.statement, Build.statement]
      refine L.of_eq (L.effect e) ?_
      simp [Stmt.reading, Stmt.wellShaped, Stmt.loopFree, Stmt.returns, Stmt.growths]
  | .skipped _ _, ns => by
      rw [Stmt.scan, Stmt.rename, Build.statement, Build.statement]
      refine L.of_eq L.idle ?_
      simp [Stmt.reading, Stmt.wellShaped, Stmt.loopFree, Stmt.returns, Stmt.growths]
  | .bad span, ns => by
      rw [Stmt.scan, Stmt.rename, Build.statement, Build.statement]
      exact L.refuse span (.refl ns) rfl (by simp [Stmt.reading, Stmt.wellShaped])

theorem statements : ∀ (stmts : List Stmt) (ns : Names),
    L.judge (Stmt.readingOfEach ctx.arity stmts ns) ns (Stmt.scanEach stmts ns)
      (statements ctx stmts) (statements (ctx.over registry') (Stmt.renameEach r stmts ns))
  | [], ns => by
      rw [Stmt.scanEach, Stmt.renameEach, Build.statements, Build.statements]
      refine L.of_eq L.idle ?_
      simp [Stmt.readingOfEach, Stmt.allWellShaped, Stmt.allLoopFree, Stmt.allReturns,
        Stmt.growthsEach]
  | s :: rest, ns => by
      rw [Stmt.scanEach, Stmt.renameEach, Build.statements, Build.statements]
      refine L.of_eq (L.seq (statement s ns) (statements rest _)) ?_
      simp [Stmt.readingOfEach, Stmt.reading, Stmt.allWellShaped, Stmt.allLoopFree,
        Stmt.allReturns, Stmt.growthsEach]

theorem statementFor : ∀ (s : Option Stmt) (ns : Names),
    L.judge (Stmt.readingIfAny ctx.arity s ns) ns (Stmt.scanIfAny s ns) (statementFor ctx s)
      (statementFor (ctx.over registry') (Stmt.renameIfAny r s ns))
  | none, ns => by
      rw [Stmt.scanIfAny, Stmt.renameIfAny, Build.statementFor, Build.statementFor]
      refine L.of_eq L.idle ?_
      simp [Stmt.readingIfAny, Stmt.wellShapedIfAny, Stmt.loopFreeIfAny, Stmt.returnsIfAny,
        Stmt.growthsIfAny]
  | some s, ns => by
      rw [Stmt.scanIfAny, Stmt.renameIfAny, Build.statementFor, Build.statementFor]
      refine L.of_eq (statement s ns) ?_
      simp [Stmt.readingIfAny, Stmt.reading, Stmt.wellShapedIfAny, Stmt.loopFreeIfAny,
        Stmt.returnsIfAny, Stmt.growthsIfAny]

theorem blockBody : ∀ (b : Block) (ns : Names),
    L.judge (b.reading ctx.arity ns) ns (b.scan ns) (blockBody ctx b)
      (blockBody (ctx.over registry') (b.rename r ns))
  | ⟨stmts, _⟩, ns => by
      rw [Block.scan, Block.rename, Build.blockBody, Build.blockBody]
      refine L.of_eq (L.inFrame (statements stmts ns)) ?_
      simp [Block.reading, Stmt.readingOfEach, Stmt.blockWellShaped, Stmt.blockLoopFree,
        Stmt.blockReturns, Block.growths]

theorem elseArms (after : PointId) : ∀ (s : Option Stmt) (ns : Names),
    L.arms after (Stmt.readingElse ctx.arity s ns) ns (Stmt.scanElse s ns) (elseArms ctx after s)
      (elseArms (ctx.over registry') after (Stmt.renameIfAny r s ns))
  | none, ns => by
      rw [Stmt.scanElse, Stmt.renameIfAny, Build.elseArms, Build.elseArms]
      have hr : Stmt.readingElse ctx.arity none ns = .nothing := by
        simp [Stmt.readingElse, Stmt.elseWellShaped, Stmt.loopFreeIfAny, Stmt.returnsIfAny,
          Stmt.growthsElse]
      rw [hr]
      exact L.noArm
  | some s, ns => by
      cases s with
      | ifElse init cond thenBlock elseBranch span =>
          rw [Stmt.scanElse, Stmt.renameIfAny, Stmt.rename, Build.elseArms, Build.elseArms]
          have h := L.arm (L.setup (statementFor init ns) cond) (blockBody thenBlock _)
            (elseArms after elseBranch (thenBlock.scan ((Stmt.scanIfAny init ns).use [cond])))
          have hr : Stmt.readingElse ctx.arity
              (some (.ifElse init cond thenBlock elseBranch span)) ns =
              Stmt.readingIfAny ctx.arity init ns ++
                .of (cond.wellShaped = true) ((Stmt.scanIfAny init ns).growths [cond]) ++
                thenBlock.reading ctx.arity ((Stmt.scanIfAny init ns).use [cond]) ++
                Stmt.readingElse ctx.arity elseBranch
                  (thenBlock.scan ((Stmt.scanIfAny init ns).use [cond])) := by
            simp [Stmt.readingElse, Stmt.readingIfAny, Block.reading, Stmt.elseWellShaped,
              Stmt.isElseBranch, Stmt.wellShaped, Stmt.loopFreeIfAny, Stmt.loopFree,
              Stmt.returnsIfAny, Stmt.returns, Stmt.growthsElse]
          rw [hr]
          exact h
      | block body span =>
          rw [Stmt.scanElse_of_ne (by simp), Stmt.scan, Stmt.renameIfAny, Stmt.rename,
            Build.elseArms, Build.elseArms]
          have hr : Stmt.readingElse ctx.arity (some (.block body span)) ns =
              body.reading ctx.arity ns := by
            simp [Stmt.readingElse, Block.reading, Stmt.elseWellShaped, Stmt.isElseBranch,
              Stmt.wellShaped, Stmt.loopFreeIfAny, Stmt.loopFree, Stmt.returnsIfAny, Stmt.returns,
              Stmt.growthsElse_of_ne, Stmt.growths]
          rw [hr]
          exact L.lastArm (blockBody body ns)
      | _ =>
          rw [Stmt.renameIfAny, Stmt.rename]
          simp only [Build.elseArms]
          exact L.refuseArm _ (Stmt.grows_scanElse _ ns) rfl (by
            simp [Stmt.readingElse, Stmt.elseWellShaped, Stmt.isElseBranch])

theorem switchClauses (c : Composition) (outer : Names) (binding : Option String)
    (after fork : PointId) : ∀ (clauses : List CaseClause) (ns : Names),
    (∀ d ∈ binding.bind outer.next?, ns.Declares d) →
    L.clauses after fork (clauses.any CaseClause.isDefault)
      (CaseClause.readingOfEach ctx.arity (binding.bind outer.next?) clauses ns) ns
      (CaseClause.scanEach (binding.bind outer.next?) clauses ns)
      (switchClauses ctx (binding.map (·, c)) after fork clauses)
      (switchClauses (ctx.over registry') ((binding.map (r.binder outer)).map (·, c)) after fork
        (CaseClause.renameEach r (binding.bind outer.next?) clauses ns))
  | [], ns, _ => by
      rw [CaseClause.scanEach, CaseClause.renameEach, Build.switchClauses, Build.switchClauses]
      have hr : CaseClause.readingOfEach ctx.arity (binding.bind outer.next?) [] ns = .nothing := by
        simp [CaseClause.readingOfEach, Stmt.clausesWellShaped, Stmt.clausesLoopFree,
          Stmt.clausesReturns, CaseClause.growthsEach]
      rw [hr]
      exact L.noClause
  | ⟨exprs, body, span⟩ :: rest, ns, hd => by
      rw [CaseClause.scanEach, CaseClause.renameEach, Build.switchClauses, Build.switchClauses]
      have hseen : ∀ d ∈ binding.bind outer.next?, (ns.use exprs).Declares d := hd
      have hclause := ((Names.Grows.use ns exprs).trans <| (Names.Grows.bring hseen).trans <|
        Stmt.grows_scanEach body _).leave
      have hd' := fun d hd' => (hd d hd').later hclause.declared
      have h := L.clause exprs.isEmpty
        (L.inFrame (L.seq (L.bindSubject c span hseen) (statements body _)))
        (switchClauses c outer binding after fork rest _ hd')
      have hr : CaseClause.readingOfEach ctx.arity (binding.bind outer.next?)
          (⟨exprs, body, span⟩ :: rest) ns =
          .nothing ++ Stmt.readingOfEach ctx.arity body
            ((ns.use exprs).bring (binding.bind outer.next?)) ++
          CaseClause.readingOfEach ctx.arity (binding.bind outer.next?) rest
            ((Stmt.scanEach body ((ns.use exprs).bring (binding.bind outer.next?))).leave ns) := by
        simp [CaseClause.readingOfEach, Stmt.readingOfEach, Stmt.clausesWellShaped,
          Stmt.clausesLoopFree, Stmt.clausesReturns, CaseClause.growthsEach]
      rw [hr]
      exact h

end

/-- The clauses of a switch, whatever variable they declare. -/
theorem exists_clauses (binding : Option (String × Composition)) (after fork : PointId)
    (clauses : List CaseClause) : ∃ d ns ns' m',
      L.clauses after fork (clauses.any CaseClause.isDefault)
        (CaseClause.readingOfEach ctx.arity d clauses ns) ns ns'
        (Build.switchClauses ctx binding after fork clauses) m' := by
  cases binding with
  | none =>
      exact ⟨_, _, _, _, L.switchClauses .blank .empty none after fork clauses .empty (by simp)⟩
  | some subject =>
      obtain ⟨name, c⟩ := subject
      exact ⟨_, _, _, _, L.switchClauses c .empty (some name) after fork clauses _
        (Names.declares_record_bind .empty (some name))⟩

end StatementLogic

end SliceLineage
