import SliceLineage.Proofs.Build.Advance
import SliceLineage.Proofs.Build.CallSites

/-!
# Assignments to blank

An expression that stands as a statement is evaluated for its calls, and no value is asked for. An
assignment to `_` asks for the value and reads it into blank. If the value is not followed, this is
the same; if the expression is a modelled call itself, the call gets an output that it does not have
in the expression statement.

* `Expr.site?`: the modelled call that an expression is; `Expr.unfollowed`: its value is not
  followed.
* `Build.run_evaluate_zero`: evaluation without a value, for expressions that are no calls.
* `Build.exists_of_site?`: evaluation of a modelled call, for any number of values.
* `Build.run_assignBlank_of_unfollowed`, `run_assignBlank_of_no_site`, `run_assignBlank_of_site`:
  the two kinds of statement compared.
* `Stmt.bindBlank`: expression statements turned into assignments to `_`;
  `Build.statement_bindBlank`: the walk is the same if their values are not followed.
-/

namespace SliceLineage

/-! ## Calls, and values that are not followed -/

namespace Expr

section

-- The function that a name means, and the bounded slice expression.
variable (func? : String → Option FuncId) (bounded? : Option FuncId)

/-- The modelled call that an expression is, parentheses aside. -/
def site? : Expr → Option CallSite
  | .paren inner _ => inner.site?
  | .call callee _ span => (callee.name?.bind func?).map (⟨·, span⟩)
  | .slice _ _ _ (some _) span => bounded?.map (⟨·, span⟩)
  | _ => none

/-- The value of the expression is not followed. -/
def unfollowed : Expr → Bool
  | .paren inner _ => inner.unfollowed
  | .call callee _ _ => (callee.name?.bind func?).isNone
  | .slice _ _ _ max _ => max.isSome && bounded?.isNone
  | .composite .struct elements _ => elements.all (·.key.isNone)
  | .ident .. | .select .. => false
  | _ => true

end

variable {func? : String → Option FuncId} {bounded? : Option FuncId}

theorem site?_of_unfollowed : ∀ {e : Expr}, e.unfollowed func? bounded? = true →
    e.site? func? bounded? = none
  | .paren inner _, h => by
      rw [unfollowed] at h
      rw [site?]
      exact site?_of_unfollowed h
  | .call callee _ span, h => by
      rw [site?, Option.isNone_iff_eq_none.mp h]
      rfl
  | .slice _ _ _ (some _) span, h => by
      rw [site?, Option.isNone_iff_eq_none.mp h]
      rfl
  | .slice _ _ _ none _, _ | .ident .., _ | .select .., _ | .composite .., _ | .unary .., _
  | .binary .., _ | .index .., _ | .typeAssert .., _ | .literal _, _ | .funcLit _, _ | .other _, _
  | .bad _, _ => rfl

/-- What is not followed where names mean all modelled functions is not followed where some of these
names are hidden. -/
theorem unfollowed_of_lookup? (registry : Registry) (s : Scopes) :
    ∀ {e : Expr}, e.unfollowed registry.lookup? bounded? = true →
      e.unfollowed (s.func? registry) bounded? = true
  | .paren inner _, h => by
      rw [unfollowed] at h ⊢
      exact unfollowed_of_lookup? registry s h
  | .call callee _ _, h => by
      rw [unfollowed] at h ⊢
      cases hname : callee.name? with
      | none => rfl
      | some name =>
          rw [hname] at h
          show (s.func? registry name).isNone = true
          unfold Scopes.func?
          split
          · rfl
          · exact h
  | .slice .., h | .composite .struct .., h => h
  | .composite .sequence .., _ | .composite .map .., _ | .unary .., _ | .binary .., _
  | .index .., _ | .typeAssert .., _ | .literal _, _ | .funcLit _, _ | .other _, _
  | .bad _, _ => rfl

end Expr

namespace Build

variable {registry : Registry} {s s' : BuildState}

/-! ## Evaluation without a value -/

/-- **An expression that is no modelled call is evaluated without a value as it is for one**, and
the value is forgotten. -/
theorem run_evaluate_zero : ∀ {e : Expr},
    e.site? (s.scopes.func? registry) registry.slice? = none →
    (evaluate registry e 0).run s = (evaluate registry e 1 >>= fun _ => return []).run s
  | .paren inner _, h => by
      rw [evaluate, evaluate]
      exact run_evaluate_zero (e := inner) h
  | .call callee args span, h => by
      have hnone : callee.name?.bind (s.scopes.func? registry) = none := Option.map_eq_none_iff.mp h
      rw [evaluate, evaluate, bind_assoc, run_bind_of_ok (run_modelled? registry callee s),
        run_bind_of_ok (run_modelled? registry callee s), hnone, bind_assoc]
      rfl
  | .slice operand low high (some max) span, h => by
      have hnone : registry.slice? = none := Option.map_eq_none_iff.mp h
      rw [evaluate, evaluate, hnone]
      simp only [bind_assoc]
      rfl
  | .slice operand low high none span, _ => by
      rw [evaluate, evaluate]
      simp only [bind_assoc]
      rfl
  | .ident name span, _ => rfl
  | .composite .., _ | .unary .., _ | .typeAssert .., _ => by
      rw [evaluate, evaluate, bind_assoc]
      rfl
  | .select .., _ | .binary .., _ | .index .., _ => by
      rw [evaluate, evaluate]
      simp only [bind_assoc]
      rfl
  | .literal _, _ | .funcLit _, _ | .other _, _ | .bad _, _ => by
      rw [evaluate, evaluate]
      rfl

/-- Elements without keys, and those of literals that are no structs, add nothing. -/
theorem embeds_eq_nil {kind : CompositeKind} {elements : List Element}
    (h : kind = .struct → elements.all (·.key.isNone) = true) :
    ∀ {s s' : BuildState} {embeds : List Embed},
      (evaluateElements registry kind elements).run s = .ok (embeds, s') → embeds = [] := by
  induction elements with
  | nil =>
      intro s s' embeds hrun
      rw [evaluateElements] at hrun
      cases hrun
      rfl
  | cons element elements ih =>
      intro s s' embeds hrun
      obtain ⟨key, value⟩ := element
      rw [evaluateElements] at hrun
      obtain ⟨_, _, -, hrun⟩ := exists_of_run_bind hrun
      obtain ⟨c, s₁, -, hrun⟩ := exists_of_run_bind hrun
      obtain ⟨rest, s₂, hrest, hrun⟩ := exists_of_run_bind hrun
      cases hrun
      have hkeys : kind = .struct → key.isNone = true ∧ elements.all (·.key.isNone) = true := by
        simpa using h
      rw [ih (fun hkind => (hkeys hkind).2) hrest, List.append_nil]
      cases kind with
      | struct =>
          obtain rfl := Option.isNone_iff_eq_none.mp (hkeys rfl).1
          rfl
      | _ => rfl

/-- A literal without followed elements is blank. -/
theorem composite_eq_blank {kind : CompositeKind} {elements : List Element} {span : Span}
    (h : kind = .struct → elements.all (·.key.isNone) = true) {cs : List Composition}
    (hrun : (evaluate registry (.composite kind elements span) 1).run s = .ok (cs, s')) :
    cs = [.blank] := by
  rw [evaluate] at hrun
  obtain ⟨embeds, s₁, hembeds, hrun⟩ := exists_of_run_bind hrun
  rw [embeds_eq_nil h hembeds] at hrun
  cases hrun
  rfl

/-- **A value that is not followed is blank.** -/
theorem eq_blank_of_unfollowed : ∀ {e : Expr},
    e.unfollowed (s.scopes.func? registry) registry.slice? = true → ∀ {cs : List Composition},
    (evaluate registry e 1).run s = .ok (cs, s') → cs = [.blank]
  | .paren inner _, h, cs, hrun => by
      rw [evaluate] at hrun
      exact eq_blank_of_unfollowed (e := inner) h hrun
  | .call callee args span, h, cs, hrun => by
      have hnone : callee.name?.bind (s.scopes.func? registry) = none :=
        Option.isNone_iff_eq_none.mp h
      rw [evaluate, run_bind_of_ok (run_modelled? registry callee s), hnone] at hrun
      obtain ⟨_, _, -, hrun⟩ := exists_of_run_bind hrun
      cases hrun
      rfl
  | .slice operand low high (some max) span, h, cs, hrun => by
      have hnone : registry.slice? = none := Option.isNone_iff_eq_none.mp h
      rw [evaluate, hnone] at hrun
      obtain ⟨_, _, -, hrun⟩ := exists_of_run_bind hrun
      obtain ⟨_, _, -, hrun⟩ := exists_of_run_bind hrun
      obtain ⟨_, _, -, hrun⟩ := exists_of_run_bind hrun
      obtain ⟨_, _, -, hrun⟩ := exists_of_run_bind hrun
      obtain ⟨_, _, -, hrun⟩ := exists_of_run_bind hrun
      cases hrun
      rfl
  | .composite .struct elements span, h, cs, hrun => composite_eq_blank (fun _ => h) hrun
  | .composite .sequence .., _, cs, hrun | .composite .map .., _, cs, hrun =>
      composite_eq_blank (by simp) hrun
  | .unary .., _, cs, hrun | .typeAssert .., _, cs, hrun => by
      rw [evaluate] at hrun
      obtain ⟨_, _, -, hrun⟩ := exists_of_run_bind hrun
      cases hrun
      rfl
  | .binary .., _, cs, hrun | .index .., _, cs, hrun => by
      rw [evaluate] at hrun
      obtain ⟨_, _, -, hrun⟩ := exists_of_run_bind hrun
      obtain ⟨_, _, -, hrun⟩ := exists_of_run_bind hrun
      cases hrun
      rfl
  | .literal _, _, cs, hrun | .funcLit _, _, cs, hrun | .other _, _, cs, hrun => by
      rw [evaluate] at hrun
      cases hrun
      rfl
  | .bad _, _, cs, hrun => by
      rw [evaluate] at hrun
      cases hrun

/-- **Evaluating a modelled call is evaluating its operands and then making the call**, with as many
outputs as are requested. -/
theorem exists_of_site? {site : CallSite} : ∀ {e : Expr},
    e.site? (s.scopes.func? registry) registry.slice? = some site →
    ∀ {n : Nat} {cs : List Composition}, (evaluate registry e n).run s = .ok (cs, s') →
    ∃ inputs s₁, (∀ inv, Appends inv → inv s → inv s₁) ∧ ∀ count,
      (evaluate registry e count).run s = (callModelled site.func inputs site.span count).run s₁
  | .paren inner _, h, n, cs, hrun => by
      rw [evaluate] at hrun
      obtain ⟨inputs, s₁, hkeeps, hsame⟩ := exists_of_site? (e := inner) h hrun
      refine ⟨inputs, s₁, hkeeps, fun count => ?_⟩
      rw [evaluate]
      exact hsame count
  | .call callee args span, h, n, cs, hrun => by
      obtain ⟨func, hfunc, rfl⟩ := Option.map_eq_some_iff.mp h
      rw [evaluate, run_bind_of_ok (run_modelled? registry callee s), hfunc] at hrun
      obtain ⟨inputs, s₁, hargs, -⟩ := exists_of_run_bind hrun
      refine ⟨inputs, s₁, fun inv hinv hs => keeps_evaluateEach hinv registry args s _ _ hs hargs,
        fun count => ?_⟩
      rw [evaluate, run_bind_of_ok (run_modelled? registry callee s), hfunc, run_bind_of_ok hargs]
      rfl
  | .slice operand low high (some max) span, h, n, cs, hrun => by
      obtain ⟨func, hfunc, rfl⟩ := Option.map_eq_some_iff.mp h
      rw [evaluate] at hrun
      obtain ⟨cs, s₀, hoperand, hrun⟩ := exists_of_run_bind hrun
      obtain ⟨base, s₁, hbase, hrun⟩ := exists_of_run_bind hrun
      obtain ⟨_, s₂, hlow, hrun⟩ := exists_of_run_bind hrun
      obtain ⟨_, s₃, hhigh, hrun⟩ := exists_of_run_bind hrun
      obtain ⟨_, s₄, hmax, -⟩ := exists_of_run_bind hrun
      refine ⟨[base], s₄, fun inv hinv hs => ?_, fun count => ?_⟩
      · have hs₀ := keeps_evaluate hinv registry operand 1 s _ _ hs hoperand
        have hs₁ := keeps_single operand.span cs s₀ _ _ hs₀ hbase
        have hs₂ := keeps_evaluateFor hinv registry low s₁ _ _ hs₁ hlow
        have hs₃ := keeps_evaluateFor hinv registry high s₂ _ _ hs₂ hhigh
        exact keeps_evaluateFor hinv registry (some max) s₃ _ _ hs₃ hmax
      · rw [evaluate, run_bind_of_ok hoperand, run_bind_of_ok hbase, run_bind_of_ok hlow,
          run_bind_of_ok hhigh, run_bind_of_ok hmax, hfunc]
        rfl

end Build

/-! ## Assignments to blank -/

/-- The statement `_ = e`. -/
def Stmt.assignBlank (e : Expr) (span : Span) : Stmt :=
  .assign [.ident Scopes.blankName e.span] [e] span

namespace Build

variable {ctx : BuildContext} {s s' : BuildState} {e : Expr} {span : Span}

theorem run_expr (ctx : BuildContext) (e : Expr) (span : Span) (s : BuildState) :
    (statement ctx (.expr e span)).run s =
      (evaluate ctx.registry e 0 >>= fun _ => return ()).run s := by
  rw [statement]
  rfl

/-- The value of an expression is stored in blank. -/
theorem run_assignBlank {c : Composition} (h : (evaluate ctx.registry e 1).run s = .ok ([c], s')) :
    (statement ctx (.assignBlank e span)).run s = (store .blank c span).run s' := by
  have hplace : (evaluateOne ctx.registry (.ident Scopes.blankName e.span)).run s' =
      .ok (.of .blank, s') := by
    rw [evaluateOne, evaluate]
    rfl
  rw [Stmt.assignBlank, statement]
  show (evaluateValues ctx.registry span [e] 1 >>= _).run s = _
  rw [run_bind_of_ok (run_evaluateValues_single span h)]
  show (assignTargets ctx span [(.ident Scopes.blankName e.span, c)]).run s' = _
  rw [assignTargets, run_bind_of_ok hplace]
  exact congrArg (StateT.run · s') (bind_pure (store .blank c span))

/-- **If an expression is no modelled call, the assignment to blank goes on where the expression
statement ends**, and reads the value into blank. -/
theorem run_assignBlank_of_no_site {s₀ : BuildState} (hs : s.scopes.Separate)
    (h : e.site? (s.scopes.func? ctx.registry) ctx.registry.slice? = none)
    (hrun : (statement ctx (.expr e span)).run s = .ok ((), s₀)) :
    ∃ c, (evaluate ctx.registry e 1).run s = .ok ([c], s₀) ∧
      (statement ctx (.assignBlank e span)).run s = (store .blank c span).run s₀ := by
  rw [run_expr] at hrun
  obtain ⟨_, s₁, hrun, hend⟩ := exists_of_run_bind hrun
  cases hend
  rw [run_evaluate_zero h] at hrun
  obtain ⟨cs, s₂, hvalue, hend⟩ := exists_of_run_bind hrun
  cases hend
  have hlogs : Logs ctx _ [] (evaluate ctx.registry e 1) _ :=
    logs_evaluate ctx.registry e 1 s.scopes.allocated
  obtain ⟨-, -, hlength, -⟩ := hlogs s cs _ rfl hs hvalue
  obtain ⟨c, rfl⟩ := List.length_eq_one_iff.mp hlength
  exact ⟨c, hvalue, run_assignBlank hvalue⟩

/-- **A value that is not followed may be assigned to blank.** -/
theorem run_assignBlank_of_unfollowed (span : Span)
    (h : e.unfollowed (s.scopes.func? ctx.registry) ctx.registry.slice? = true) :
    (statement ctx (.assignBlank e span)).run s = (statement ctx (.expr e span)).run s := by
  rw [run_expr, StateT.run_bind, run_evaluate_zero (Expr.site?_of_unfollowed h), StateT.run_bind]
  cases hvalue : (evaluate ctx.registry e 1).run s with
  | error fault =>
      rw [Stmt.assignBlank, statement, evaluateValues, bind_assoc]
      show (evaluate ctx.registry e 1 >>= _).run s = _
      rw [StateT.run_bind, hvalue]
      rfl
  | ok result =>
      obtain ⟨cs, s'⟩ := result
      obtain rfl := eq_blank_of_unfollowed h hvalue
      exact run_assignBlank hvalue

/-- **A modelled call has no output in an expression statement, and one in an assignment to blank**,
which is then read into blank. -/
theorem run_assignBlank_of_site {s₀ : BuildState} {site : CallSite}
    (h : e.site? (s.scopes.func? ctx.registry) ctx.registry.slice? = some site)
    (hrun : (statement ctx (.expr e span)).run s = .ok ((), s₀)) :
    ∃ inputs s₁, (∀ inv, Appends inv → inv s → inv s₁) ∧
      s₀ = ⟨s₁.cursor.append (.call site.func inputs []) (some site.span), s₁.scopes⟩ ∧
      (statement ctx (.assignBlank e span)).run s = .ok ((),
        ⟨(s₁.cursor.append (.call site.func inputs [.tracked s₁.scopes.allocated])
            (some site.span)).append
          (.assign (.whole (.tracked s₁.scopes.allocated)) .blank) (some span),
          ⟨s₁.scopes.frames, s₁.scopes.allocated + 1⟩⟩) := by
  rw [run_expr] at hrun
  obtain ⟨_, s₂, hrun, hend⟩ := exists_of_run_bind hrun
  cases hend
  obtain ⟨inputs, s₁, hkeeps, hsame⟩ := exists_of_site? h hrun
  have hone : (evaluate ctx.registry e 1).run s =
      .ok ([.of (.whole (.tracked s₁.scopes.allocated))],
        ⟨s₁.cursor.append (.call site.func inputs [.tracked s₁.scopes.allocated])
          (some site.span), ⟨s₁.scopes.frames, s₁.scopes.allocated + 1⟩⟩) := hsame 1
  rw [hsame 0] at hrun
  cases hrun
  refine ⟨inputs, s₁, hkeeps, rfl, ?_⟩
  rw [run_assignBlank hone]
  rfl

end Build

/-! ## Statements with assignments to blank -/

mutual

/-- The statement with assignments to blank in the place of the expression statements that are
picked. -/
def Stmt.bindBlank (picks : Expr → Bool) : Stmt → Stmt
  | .block body span => .block (body.bindBlank picks) span
  | .labeled label stmt span => .labeled label (stmt.bindBlank picks) span
  | .ifElse init cond thenBlock elseBranch span =>
      .ifElse (Stmt.bindBlankIfAny picks init) cond (thenBlock.bindBlank picks)
        (Stmt.bindBlankIfAny picks elseBranch) span
  | .forLoop init cond post body span =>
      .forLoop (Stmt.bindBlankIfAny picks init) cond (Stmt.bindBlankIfAny picks post)
        (body.bindBlank picks) span
  | .range key value define subject body span =>
      .range key value define subject (body.bindBlank picks) span
  | .switch init tag clauses span =>
      .switch (Stmt.bindBlankIfAny picks init) tag (CaseClause.bindBlankEach picks clauses) span
  | .typeSwitch init binding subject clauses span =>
      .typeSwitch (Stmt.bindBlankIfAny picks init) binding subject
        (CaseClause.bindBlankEach picks clauses) span
  | .expr e span => if picks e then .assignBlank e span else .expr e span
  | .define names values span => .define names values span
  | .assign targets values span => .assign targets values span
  | .ret results span => .ret results span
  | .skipped kind span => .skipped kind span
  | .bad span => .bad span

def Stmt.bindBlankEach (picks : Expr → Bool) : List Stmt → List Stmt
  | [] => []
  | s :: rest => s.bindBlank picks :: Stmt.bindBlankEach picks rest

def Stmt.bindBlankIfAny (picks : Expr → Bool) : Option Stmt → Option Stmt
  | none => none
  | some s => some (s.bindBlank picks)

def Block.bindBlank (picks : Expr → Bool) : Block → Block
  | ⟨stmts, span⟩ => ⟨Stmt.bindBlankEach picks stmts, span⟩

def CaseClause.bindBlankEach (picks : Expr → Bool) : List CaseClause → List CaseClause
  | [] => []
  | ⟨exprs, body, span⟩ :: rest =>
      ⟨exprs, Stmt.bindBlankEach picks body, span⟩ :: CaseClause.bindBlankEach picks rest

end

/-- Only expressions are picked whose values are followed in no scope. -/
def PicksUnfollowed (registry : Registry) (picks : Expr → Bool) : Prop :=
  ∀ e, picks e = true → e.unfollowed registry.lookup? registry.slice? = true

/-- The function with assignments to blank in the place of the expression statements that are
picked. -/
def FunctionDecl.bindBlank (picks : Expr → Bool) (f : FunctionDecl) : FunctionDecl :=
  { f with body := f.body.bindBlank picks }

namespace Stmt

variable (picks : Expr → Bool)

theorem span_bindBlank (s : Stmt) : (s.bindBlank picks).span = s.span := by
  cases s with
  | expr e span =>
      rw [bindBlank]
      split <;> rfl
  | _ => rw [bindBlank] <;> rfl

theorem brokenElse?_bindBlank : ∀ s : Stmt, (s.bindBlank picks).brokenElse? = s.brokenElse?
  | .ifElse _ _ _ none _ => by
      rw [bindBlank, bindBlankIfAny]
      rfl
  | .ifElse init cond thenBlock (some branch) span => by
      have ih := brokenElse?_bindBlank branch
      have hspan := span_bindBlank picks branch
      rw [bindBlank, bindBlankIfAny]
      cases branch with
      | ifElse =>
          rw [bindBlank] at ih ⊢
          exact ih
      | block =>
          rw [bindBlank]
          rfl
      | expr e span =>
          rw [bindBlank]
          split <;> rfl
      | _ =>
          rw [bindBlank] at hspan ⊢
          exact congrArg some hspan
  | .expr e span => by
      rw [bindBlank]
      split <;> rfl
  | .block .. | .labeled .. | .forLoop .. | .range .. | .define .. | .assign .. | .switch ..
  | .typeSwitch .. | .ret .. | .skipped .. | .bad .. => by
      rw [bindBlank] <;> rfl

end Stmt

theorem CaseClause.any_isDefault_bindBlank (picks : Expr → Bool) (clauses : List CaseClause) :
    (CaseClause.bindBlankEach picks clauses).any CaseClause.isDefault =
      clauses.any CaseClause.isDefault := by
  induction clauses with
  | nil => rw [CaseClause.bindBlankEach]
  | cons clause rest ih =>
      obtain ⟨exprs, body, span⟩ := clause
      rw [CaseClause.bindBlankEach, List.any_cons, List.any_cons, ih]
      rfl

namespace Build

variable {ctx : BuildContext} {picks : Expr → Bool}

mutual

/-- **The walk over a statement does not change if values that are not followed are assigned to
blank.** -/
theorem statement_bindBlank (hp : PicksUnfollowed ctx.registry picks) : ∀ stmt : Stmt,
    statement ctx (stmt.bindBlank picks) = statement ctx stmt
  | .block body _ => by
      rw [Stmt.bindBlank, statement, statement, blockBody_bindBlank hp body]
  | .labeled _ stmt _ => by
      rw [Stmt.bindBlank, statement, statement, statement_bindBlank hp stmt]
  | .ifElse init cond thenBlock elseBranch span => by
      have hbroken := Stmt.brokenElse?_bindBlank picks (.ifElse init cond thenBlock elseBranch span)
      rw [Stmt.bindBlank] at hbroken ⊢
      rw [statement, statement, hbroken, statementFor_bindBlank hp init,
        blockBody_bindBlank hp thenBlock]
      simp only [elseArms_bindBlank hp elseBranch]
  | .forLoop init cond post body span => by
      rw [Stmt.bindBlank, statement, statement, statementFor_bindBlank hp init,
        statementFor_bindBlank hp post, blockBody_bindBlank hp body]
  | .range key value define subject body span => by
      rw [Stmt.bindBlank, statement, statement, blockBody_bindBlank hp body]
  | .switch init tag clauses span => by
      rw [Stmt.bindBlank, statement, statement, statementFor_bindBlank hp init,
        CaseClause.any_isDefault_bindBlank]
      simp only [switchClauses_bindBlank hp clauses]
  | .typeSwitch init binding subject clauses span => by
      rw [Stmt.bindBlank, statement, statement, statementFor_bindBlank hp init,
        CaseClause.any_isDefault_bindBlank]
      simp only [switchClauses_bindBlank hp clauses]
  | .expr e span => by
      rw [Stmt.bindBlank]
      split
      · rename_i hpicked
        refine funext fun s => run_assignBlank_of_unfollowed span ?_
        exact Expr.unfollowed_of_lookup? _ _ (hp e hpicked)
      · rfl
  | .define .. | .assign .. | .ret .. | .skipped .. | .bad .. => by
      rw [Stmt.bindBlank]

theorem statements_bindBlank (hp : PicksUnfollowed ctx.registry picks) : ∀ stmts : List Stmt,
    statements ctx (Stmt.bindBlankEach picks stmts) = statements ctx stmts
  | [] => by rw [Stmt.bindBlankEach]
  | stmt :: rest => by
      rw [Stmt.bindBlankEach, statements, statements, statement_bindBlank hp stmt,
        statements_bindBlank hp rest]

theorem statementFor_bindBlank (hp : PicksUnfollowed ctx.registry picks) : ∀ stmt : Option Stmt,
    statementFor ctx (Stmt.bindBlankIfAny picks stmt) = statementFor ctx stmt
  | none => by rw [Stmt.bindBlankIfAny]
  | some stmt => by
      rw [Stmt.bindBlankIfAny, statementFor, statementFor, statement_bindBlank hp stmt]

theorem blockBody_bindBlank (hp : PicksUnfollowed ctx.registry picks) : ∀ b : Block,
    blockBody ctx (b.bindBlank picks) = blockBody ctx b
  | ⟨stmts, _⟩ => by
      rw [Block.bindBlank, blockBody, blockBody, statements_bindBlank hp stmts]

theorem elseArms_bindBlank (hp : PicksUnfollowed ctx.registry picks) :
    ∀ (branch : Option Stmt) (after : PointId),
    elseArms ctx after (Stmt.bindBlankIfAny picks branch) = elseArms ctx after branch
  | none, after => by rw [Stmt.bindBlankIfAny]
  | some (.ifElse init cond thenBlock elseBranch span), after => by
      rw [Stmt.bindBlankIfAny, Stmt.bindBlank, elseArms, elseArms, statementFor_bindBlank hp init,
        blockBody_bindBlank hp thenBlock, elseArms_bindBlank hp elseBranch after]
  | some (.block body _), after => by
      rw [Stmt.bindBlankIfAny, Stmt.bindBlank, elseArms, elseArms, blockBody_bindBlank hp body]
  | some (.expr e span), after => by
      rw [Stmt.bindBlankIfAny, Stmt.bindBlank]
      split <;> rfl
  | some (.labeled ..), after | some (.forLoop ..), after | some (.range ..), after
  | some (.define ..), after | some (.assign ..), after | some (.switch ..), after
  | some (.typeSwitch ..), after | some (.ret ..), after | some (.skipped ..), after
  | some (.bad ..), after => by
      rw [Stmt.bindBlankIfAny, Stmt.bindBlank] <;> rfl

theorem switchClauses_bindBlank (hp : PicksUnfollowed ctx.registry picks) :
    ∀ (clauses : List CaseClause) (binding : Option (String × Composition)) (after fork : PointId),
    switchClauses ctx binding after fork (CaseClause.bindBlankEach picks clauses) =
      switchClauses ctx binding after fork clauses
  | [], _, _, _ => by rw [CaseClause.bindBlankEach]
  | ⟨_, body, _⟩ :: rest, binding, after, fork => by
      rw [CaseClause.bindBlankEach, switchClauses, switchClauses, statements_bindBlank hp body,
        switchClauses_bindBlank hp rest binding after fork]

end

/-- Operations are recorded one after the other. -/
theorem appends_records : Appends fun s => ∃ ops, s.cursor.graph.Records ops where
  scopes _ _ h := h
  append _ op span _ h := by
    obtain ⟨ops, h⟩ := h
    exact ⟨_, Cursor.records_append h op (some span)⟩

end Build

end SliceLineage
