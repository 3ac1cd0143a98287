import SliceLineage.Proofs.Build.Course
import SliceLineage.Proofs.Lowering.Cells

/-!
# Positions in the walk over a function

Statement lists are nested in statements. At each of them the walk arrives by certain steps, walks
over the list, and then goes on with the rest. What the rest does to points that the list made is
little: they get no edge any more from anywhere else.

* `Build.Part`: the lists directly inside of a statement, each with the steps that lead there.
  `Build.Leads`: the lists at any depth.
* `Build.Spares`: the points of a section are entered from the section only.
* `Build.Passes`: a step arrives at a list, walks over it, and spares all that the list made.
* `Build.Leads.passes`: the walk over statements passes every list inside of them.
-/

namespace SliceLineage

namespace Build

/-! ## Lists inside of statements -/

/-- Opens a frame. -/
def push : Build Unit := modify fun s => { s with scopes := s.scopes.push }

section

variable (ctx : BuildContext)

/-- The lists in the arms of an if statement from a branch on; the steps to them depend on the point
where the arms meet. -/
inductive ElsePart : Option Stmt → (PointId → Build Unit) → List Stmt → Prop
  | init {init : Stmt} {cond : Expr} {thenBlock : Block} {elseBranch : Option Stmt} {span : Span} :
      ElsePart (some (.ifElse (some init) cond thenBlock elseBranch span)) (fun _ => return) [init]
  | thenBlock {init : Option Stmt} {cond : Expr} {thenBlock : Block} {elseBranch : Option Stmt}
      {span : Span} :
      ElsePart (some (.ifElse init cond thenBlock elseBranch span))
        (fun _ => do
          statementFor ctx init
          discard (evaluate ctx.registry cond 0)
          push)
        thenBlock.stmts
  | elseBranch {init : Option Stmt} {cond : Expr} {thenBlock : Block} {elseBranch : Option Stmt}
      {span : Span} {enter : PointId → Build Unit} {l : List Stmt}
      (h : ElsePart elseBranch enter l) :
      ElsePart (some (.ifElse init cond thenBlock elseBranch span))
        (fun after => do
          arm after (do statementFor ctx init; discard (evaluate ctx.registry cond 0))
            (blockBody ctx thenBlock)
          enter after)
        l
  | last {body : Block} {span : Span} :
      ElsePart (some (.block body span)) (fun _ => push) body.stmts

/-- The lists in the clauses of a switch; the steps to them depend on what the clauses bind and on
the points where they begin and end. -/
inductive ClausePart : List CaseClause →
    (Option (String × Composition) → PointId → PointId → Build Unit) → List Stmt → Prop
  | head {exprs : List Expr} {body : List Stmt} {span : Span} {rest : List CaseClause} :
      ClausePart (⟨exprs, body, span⟩ :: rest)
        (fun binding _ fork => do
          moveTo fork
          push
          bindSubject span binding)
        body
  | tail {clause : CaseClause} {rest : List CaseClause}
      {enter : Option (String × Composition) → PointId → PointId → Build Unit} {l : List Stmt}
      (h : ClausePart rest enter l) :
      ClausePart (clause :: rest)
        (fun binding after fork => do
          switchClauses ctx binding after fork [clause]
          enter binding after fork)
        l

/-- The lists directly inside of a statement, with the steps that lead there. A statement that
stands alone counts as a list. -/
inductive Part : Stmt → Build Unit → List Stmt → Prop
  | block {body : Block} {span : Span} : Part (.block body span) push body.stmts
  | labeled {label : String} {stmt : Stmt} {span : Span} :
      Part (.labeled label stmt span) (return) [stmt]
  | arms {init : Option Stmt} {cond : Expr} {thenBlock : Block} {elseBranch : Option Stmt}
      {span : Span} {enter : PointId → Build Unit} {l : List Stmt}
      (h : ElsePart ctx (some (.ifElse init cond thenBlock elseBranch span)) enter l) :
      Part (.ifElse init cond thenBlock elseBranch span)
        (do
          push
          let after ← reserve span
          enter after)
        l
  | forInit {init : Stmt} {cond : Option Expr} {post : Option Stmt} {body : Block} {span : Span} :
      Part (.forLoop (some init) cond post body span) push [init]
  | forBody {init : Option Stmt} {cond : Option Expr} {post : Option Stmt} {body : Block}
      {span : Span} :
      Part (.forLoop init cond post body span)
        (do
          push
          statementFor ctx init
          append .noop span
          evaluateFor ctx.registry cond
          push)
        body.stmts
  | forPost {init : Option Stmt} {cond : Option Expr} {post : Stmt} {body : Block} {span : Span} :
      Part (.forLoop init cond (some post) body span)
        (do
          push
          statementFor ctx init
          append .noop span
          evaluateFor ctx.registry cond
          blockBody ctx body)
        [post]
  | rangeBody {key value : Option Expr} {define : Bool} {subject : Expr} {body : Block}
      {span : Span} :
      Part (.range key value define subject body span)
        (do
          discard (evaluate ctx.registry subject 0)
          push
          append .noop span
          rangeBinding ctx define key
          rangeBinding ctx define value
          push)
        body.stmts
  | switchInit {init : Stmt} {tag : Option Expr} {clauses : List CaseClause} {span : Span} :
      Part (.switch (some init) tag clauses span) push [init]
  | clauses {init : Option Stmt} {tag : Option Expr} {clauses : List CaseClause} {span : Span}
      {enter : Option (String × Composition) → PointId → PointId → Build Unit} {l : List Stmt}
      (h : ClausePart ctx clauses enter l) :
      Part (.switch init tag clauses span)
        (do
          push
          statementFor ctx init
          evaluateFor ctx.registry tag
          let after ← reserve span
          let fork ← current
          enter none after fork)
        l
  | typeInit {init : Stmt} {binding : Option String} {subject : Expr} {clauses : List CaseClause}
      {span : Span} : Part (.typeSwitch (some init) binding subject clauses span) push [init]
  | typeClauses {init : Option Stmt} {binding : Option String} {subject : Expr}
      {clauses : List CaseClause} {span : Span}
      {enter : Option (String × Composition) → PointId → PointId → Build Unit} {l : List Stmt}
      (h : ClausePart ctx clauses enter l) :
      Part (.typeSwitch init binding subject clauses span)
        (do
          push
          statementFor ctx init
          let c ← evaluateOne ctx.registry subject
          let after ← reserve span
          let fork ← current
          enter (binding.map (·, c)) after fork)
        l

/-- The walk over a list comes to `l`, the end of the list or one inside of it, by these steps. -/
inductive Leads : List Stmt → Build Unit → List Stmt → Prop
  | here (l : List Stmt) : Leads l (return) l
  | next (stmt : Stmt) {rest : List Stmt} {enter : Build Unit} {l : List Stmt}
      (h : Leads rest enter l) : Leads (stmt :: rest) (do statement ctx stmt; enter) l
  | inside {stmt : Stmt} (rest : List Stmt) {outer : Build Unit} {part : List Stmt}
      {enter : Build Unit} {l : List Stmt} (hpart : Part ctx stmt outer part)
      (h : Leads part enter l) : Leads (stmt :: rest) (do outer; enter) l

end

/-! ## Joining old points -/

/-- A property that the walk keeps as long as it joins, and comes back to, only points whose index
is below `old`, and new ones. -/
structure Local (old : Nat) (inv : BuildState → Prop) : Prop where
  course : ∀ hub s s', (∀ after ∈ hub, PointId.index after < old) →
    Cursor.Course True hub s.cursor s'.cursor → inv s → inv s'
  append : ∀ s op span, inv s → inv { s with cursor := s.cursor.append op span }
  reserve : ∀ s span, inv s → inv { s with cursor := (s.cursor.reserve span).2 }
  moveTo : ∀ s (p : PointId), p.index < old → inv s → inv { s with cursor := s.cursor.moveTo p }
  join : ∀ s (p : PointId) c, p.index < old → s.cursor.join p = (.ok (), c) → inv s →
    inv { s with cursor := c }

/-- The graph has at least `n` points, and no edge leads out of it. -/
def Within (n : Nat) (s : BuildState) : Prop :=
  n ≤ s.cursor.graph.pointCount ∧ s.cursor.Bounded

/-- The points from `lo` up to `hi` are entered from each other only. -/
def Spares (lo hi : Nat) (s : BuildState) : Prop :=
  hi ≤ s.cursor.graph.pointCount ∧ ∀ q, ∀ t ∈ s.cursor.graph.successors q,
    lo ≤ t.target.index → t.target.index < hi → lo ≤ q.index ∧ q.index < hi

section

variable {ctx : BuildContext} {inv : BuildState → Prop} {old n lo hi : Nat} {after fork : PointId}
  {α : Type}

theorem local_within (h : old ≤ n) : Local old (Within n) where
  course _ _ _ hhub hcourse hs :=
    ⟨Nat.le_trans hs.1 hcourse.grows.points, hcourse.bounded
      (fun after ha => Nat.lt_of_lt_of_le (hhub after ha) (Nat.le_trans h hs.1)) hs.2⟩
  append _ op span hs :=
    ⟨Nat.le_trans hs.1 (Cursor.grows_append _ _ _).points, hs.2.append op span⟩
  reserve _ span hs :=
    ⟨Nat.le_trans hs.1 (FlowGraph.grows_allocate _ _).points, hs.2.reserve span⟩
  moveTo _ _ hp hs := ⟨hs.1, hs.2.moveTo (Nat.lt_of_lt_of_le hp (Nat.le_trans h hs.1))⟩
  join _ _ _ hp hjoin hs :=
    ⟨Nat.le_trans hs.1 (Cursor.grows_join hjoin).points,
      hs.2.join (Nat.lt_of_lt_of_le hp (Nat.le_trans h hs.1)) hjoin⟩

/-- The section is spared by edges that were there, and by edges to other points. -/
theorem Spares.of_mem {s s' : BuildState} (h : Spares lo hi s)
    (hpoints : s.cursor.graph.pointCount ≤ s'.cursor.graph.pointCount)
    (hmem : ∀ q, ∀ t ∈ s'.cursor.graph.successors q, t ∈ s.cursor.graph.successors q ∨
      s.cursor.graph.pointCount ≤ t.target.index ∨ t.target.index < lo) : Spares lo hi s' := by
  refine ⟨Nat.le_trans h.1 hpoints, fun q t ht hlo hhi => ?_⟩
  rcases hmem q t ht with hold | hnew | hbelow
  · exact h.2 q t hold hlo hhi
  · exact absurd (Nat.lt_of_lt_of_le hhi h.1) (Nat.not_lt_of_le hnew)
  · exact absurd hbelow (Nat.not_lt_of_le hlo)

theorem local_spares (h : old ≤ lo) : Local old (Spares lo hi) where
  course hub s s' hhub hcourse hs := by
    refine hs.of_mem hcourse.grows.points fun q t ht => ?_
    rcases hcourse.mem_successors ht with hold | hnew | ⟨-, hat⟩
    · exact Or.inl hold
    · exact Or.inr (Or.inl hnew)
    · exact Or.inr (Or.inr (Nat.lt_of_lt_of_le (hhub _ hat) h))
  append s op span hs := by
    refine hs.of_mem (Cursor.grows_append _ _ _).points fun q t ht => ?_
    rcases Cursor.mem_successors_of_append ht with hold | ⟨-, rfl⟩
    · exact Or.inl hold
    · exact Or.inr (Or.inl (Nat.le_refl _))
  reserve s span hs := by
    refine hs.of_mem (FlowGraph.grows_allocate _ _).points fun q t ht => Or.inl ?_
    exact FlowGraph.successors_allocate _ _ q ▸ ht
  moveTo _ _ _ hs := hs
  join s p c hp hjoin hs := by
    refine hs.of_mem (Cursor.grows_join hjoin).points fun q t ht => ?_
    rcases Cursor.mem_successors_of_join hjoin ht with hold | ⟨-, hat⟩
    · exact Or.inl hold
    · exact Or.inr (Or.inr (hat ▸ Nat.lt_of_lt_of_le hp h))

section

variable (hl : Local old inv)
include hl

theorem Local.appends : Appends inv where
  scopes s scopes hs := hl.course none s _ (by simp) (.stay _) hs
  append s op span _ hs := hl.append s op (some span) hs

theorem Local.keeps {m : Build α} (hm : Follows True m) : Keeps inv m :=
  fun s _ s' hs hrun => hl.course none s s' (by simp) (hm.of_run hrun) hs

theorem Local.keeps_push : Keeps inv push := .update fun s hs => hl.appends.scopes s _ hs

theorem Local.keeps_join (hp : after.index < old) : Keeps inv (Build.join after) := by
  intro s _ s' hs hrun
  obtain ⟨c, hjoin, rfl⟩ := exists_of_run_join hrun
  exact hl.join s after c hp hjoin hs

theorem Local.keeps_moveTo (hp : fork.index < old) : Keeps inv (Build.moveTo fork) :=
  .update fun s hs => hl.moveTo s fork hp hs

theorem Local.keeps_closeLoop (hp : after.index < old) : Keeps inv (closeLoop after) :=
  (Keeps.reads _).bind fun _ => .ite (.pure _) (hl.keeps_join hp)

theorem Local.keeps_arm (hp : after.index < old) {setup body : Build Unit}
    (hsetup : Follows True setup) (hbody : Follows True body) :
    Keeps inv (arm after setup body) := by
  intro s _ s' hs hrun
  have hcourse := keeps_course_arm hsetup hbody s.cursor s () s' (.stay _) hrun
  exact hl.course (some after) s s' (fun p hat => Option.mem_some.mp hat ▸ hp) hcourse hs

theorem Local.keeps_switchClauses (ctx : BuildContext) (hafter : after.index < old)
    (hfork : fork.index < old) (binding : Option (String × Composition))
    (clauses : List CaseClause) : Keeps inv (switchClauses ctx binding after fork clauses) := by
  induction clauses with
  | nil =>
      rw [switchClauses]
      exact .pure _
  | cons clause rest ih =>
      obtain ⟨exprs, body, span⟩ := clause
      rw [switchClauses]
      have hbody := keeps_inFrame hl.appends <|
        (keeps_bindSubject hl.appends span binding).bind fun _ =>
          hl.keeps (follows_statements ctx body fun _ => trivial)
      exact (hl.keeps_moveTo hfork).bind fun _ => hbody.bind fun _ =>
        (hl.keeps_join hafter).bind fun _ => ih

end

theorem keeps_spares_elseArms (hlo : after.index < lo) (branch : Option Stmt) :
    Keeps (Spares lo hi) (elseArms ctx after branch) := by
  intro s _ s' hs hrun
  have hl : Local lo (Spares lo hi) := local_spares (Nat.le_refl _)
  obtain ⟨c, hcourse, hjoin⟩ := merges_elseArms ctx after branch (fun _ => trivial) s.cursor s s'
    (.stay _) hrun
  have hc := hl.course (some after) s { s with cursor := c }
    (fun p hat => Option.mem_some.mp hat ▸ hlo) hcourse hs
  have hjoined := hl.join { s with cursor := c } after _ hlo hjoin hc
  exact hjoined

/-! ## Passing a list -/

/-- The step comes to the list by `enter`, walks over it, and then spares what the list made. Points
below `old` may be joined in between. -/
def Passes (ctx : BuildContext) (old : Nat) (enter : Build Unit) (l : List Stmt)
    (m : Build Unit) : Prop :=
  ∀ n s s', old ≤ n → Within n s → m.run s = .ok ((), s') →
    ∃ s₁ s₂, enter.run s = .ok ((), s₁) ∧ (statements ctx l).run s₁ = .ok ((), s₂) ∧
      Within n s₁ ∧
      ∀ lo hi, s₁.cursor.graph.pointCount ≤ lo → Spares lo hi s₂ → Spares lo hi s'

namespace Passes

variable {enter m : Build Unit} {l : List Stmt}

theorem here (ctx : BuildContext) (old : Nat) (l : List Stmt) :
    Passes ctx old (return) l (statements ctx l) :=
  fun _ s s' _ hs hrun => ⟨s, s', rfl, hrun, hs, fun _ _ _ h => h⟩

/-- A statement that stands alone. -/
theorem single (ctx : BuildContext) (old : Nat) (stmt : Stmt) :
    Passes ctx old (return) [stmt] (statement ctx stmt) := by
  have hsingle := here ctx old [stmt]
  rwa [statements, statements, bind_pure_unit] at hsingle

theorem followedBy (h : Passes ctx old enter l m) {k : Build Unit}
    (hk : ∀ lo hi, old ≤ lo → Keeps (Spares lo hi) k) : Passes ctx old enter l (do m; k) := by
  intro n s s' hn hs hrun
  obtain ⟨_, s₀, hrun, hk'⟩ := exists_of_run_bind hrun
  obtain ⟨s₁, s₂, henter, hl, hs₁, hspares⟩ := h n s s₀ hn hs hrun
  refine ⟨s₁, s₂, henter, hl, hs₁, fun lo hi hlo hs₂ => ?_⟩
  exact hk lo hi (Nat.le_trans hn (Nat.le_trans hs₁.1 hlo)) s₀ _ s' (hspares lo hi hlo hs₂) hk'

theorem precededBy {step : Build α} {enter m : α → Build Unit}
    (hstep : ∀ n, old ≤ n → Keeps (Within n) step)
    (h : ∀ a, Passes ctx old (enter a) l (m a)) :
    Passes ctx old (step >>= enter) l (step >>= m) := by
  intro n s s' hn hs hrun
  obtain ⟨a, s₀, hfirst, hrun⟩ := exists_of_run_bind hrun
  obtain ⟨s₁, s₂, henter, hrest⟩ := h a n s₀ s' hn (hstep n hn s a s₀ hs hfirst) hrun
  exact ⟨s₁, s₂, (run_bind_of_ok hfirst).trans henter, hrest⟩

/-- After a point is reserved, it may be joined. -/
theorem reserve {enter m : PointId → Build Unit} (span : Span)
    (h : ∀ after old', after.index < old' → Passes ctx old' (enter after) l (m after)) :
    Passes ctx old (Build.reserve span >>= enter) l (Build.reserve span >>= m) := by
  intro n s s' hn hs hrun
  have hcount : (s.cursor.reserve (some span)).2.graph.pointCount =
      s.cursor.graph.pointCount + 1 := Cursor.pointCount_reserve _ _
  obtain ⟨s₁, s₂, henter, hl, hs₁, hspares⟩ :=
    h ⟨s.cursor.graph.pointCount⟩ _ (Nat.lt_succ_self _) _
      { s with cursor := (s.cursor.reserve (some span)).2 } s' (Nat.le_refl _)
      ⟨Nat.le_of_eq hcount.symm, hs.2.reserve (some span)⟩ hrun
  exact ⟨s₁, s₂, henter, hl, ⟨Nat.le_trans (Nat.le_succ_of_le hs.1) hs₁.1, hs₁.2⟩, hspares⟩

/-- The walk may come back to where it is. -/
theorem current {enter m : PointId → Build Unit}
    (h : ∀ fork old', old ≤ old' → fork.index < old' → Passes ctx old' (enter fork) l (m fork)) :
    Passes ctx old (Build.current >>= enter) l (Build.current >>= m) := by
  intro n s s' hn hs hrun
  obtain ⟨s₁, s₂, henter, hl, hs₁, hspares⟩ :=
    h s.cursor.current _ (Nat.le_trans hn hs.1) hs.2.inside _ s s' (Nat.le_refl _)
      ⟨Nat.le_refl _, hs.2⟩ hrun
  exact ⟨s₁, s₂, henter, hl, ⟨Nat.le_trans hs.1 hs₁.1, hs₁.2⟩, hspares⟩

/-- The same, if it does not matter for the way to the list. -/
theorem here_current {m : PointId → Build Unit}
    (h : ∀ fork old', old ≤ old' → fork.index < old' → Passes ctx old' enter l (m fork)) :
    Passes ctx old enter l (Build.current >>= m) := by
  have hcurrent : Passes ctx old (Build.current >>= fun _ => enter) l (Build.current >>= m) :=
    current h
  exact hcurrent

theorem inFrame (h : Passes ctx old enter l m) :
    Passes ctx old (do push; enter) l (Build.inFrame m) := by
  refine precededBy (fun n hn => (local_within hn).keeps_push) fun _ =>
    h.followedBy fun lo hi hlo => ?_
  have hl : Local old (Spares lo hi) := local_spares hlo
  exact .update fun s hs => hl.appends.scopes s _ hs

/-- A list inside of a list. -/
theorem trans {outer : Build Unit} {part : List Stmt} (h : Passes ctx old outer part m)
    (h' : Passes ctx 0 enter l (statements ctx part)) :
    Passes ctx old (do outer; enter) l m := by
  intro n s s' hn hs hrun
  obtain ⟨s₁, s₂, houter, hpart, hs₁, hspares⟩ := h n s s' hn hs hrun
  obtain ⟨s₃, s₄, henter, hl, hs₃, hspares'⟩ :=
    h' s₁.cursor.graph.pointCount s₁ s₂ (Nat.zero_le _) ⟨Nat.le_refl _, hs₁.2⟩ hpart
  refine ⟨s₃, s₄, (run_bind_of_ok houter).trans henter, hl,
    ⟨Nat.le_trans hs₁.1 hs₃.1, hs₃.2⟩, fun lo hi hlo hs₄ => ?_⟩
  exact hspares lo hi (Nat.le_trans hs₃.1 hlo) (hspares' lo hi hlo hs₄)

theorem setup_arm (hp : PointId.index after < old) {body : Build Unit} (h : Passes ctx old enter l m)
    (hbody : Follows True body) : Passes ctx old enter l (arm after m body) := by
  refine h.followedBy fun lo hi hlo => ?_
  have hl : Local old (Spares lo hi) := local_spares hlo
  exact (Keeps.reads _).bind fun _ => (hl.keeps hbody).bind fun _ =>
    (hl.keeps_join hp).bind fun _ => .update fun _ hs => hs

theorem body_arm (hp : PointId.index after < old) {setup : Build Unit} (hsetup : Follows True setup)
    (h : Passes ctx old enter l m) : Passes ctx old (do setup; enter) l (arm after setup m) := by
  refine precededBy (fun n hn => (local_within hn).keeps hsetup) fun _ => ?_
  refine precededBy (fun n hn => .reads _) fun fork => h.followedBy fun lo hi hlo => ?_
  have hl : Local old (Spares lo hi) := local_spares hlo
  exact (hl.keeps_join hp).bind fun _ => .update fun _ hs => hs

end Passes

/-! ## The lists of a statement are passed -/

variable {stmt : Stmt} {enter : Build Unit} {l : List Stmt}

theorem passes_blockBody (ctx : BuildContext) (old : Nat) (b : Block) :
    Passes ctx old push b.stmts (blockBody ctx b) := by
  obtain ⟨stmts, span⟩ := b
  rw [blockBody]
  have hframe := (Passes.here ctx old stmts).inFrame
  rwa [bind_pure_unit] at hframe

theorem follows_setup (ctx : BuildContext) (init : Option Stmt) (cond : Expr) :
    Follows True (do statementFor ctx init; discard (evaluate ctx.registry cond 0)) :=
  (follows_statementFor ctx init fun _ => trivial).bind fun _ =>
    (Follows.of_appends fun ha => keeps_evaluate ha ctx.registry cond 0).discard

theorem ElsePart.passes {branch : Option Stmt} {enter : PointId → Build Unit}
    (h : ElsePart ctx branch enter l) (hafter : after.index < old) :
    Passes ctx old (enter after) l (elseArms ctx after branch) := by
  induction h with
  | @init init cond thenBlock elseBranch span =>
      rw [elseArms, statementFor]
      have hsetup := (Passes.single ctx old init).followedBy fun lo hi hlo =>
        (local_spares hlo).keeps
          (Follows.of_appends fun ha => keeps_evaluate ha ctx.registry cond 0).discard
      exact (hsetup.setup_arm hafter (follows_blockBody ctx _ fun _ => trivial)).followedBy
        fun lo hi hlo => keeps_spares_elseArms (Nat.lt_of_lt_of_le hafter hlo) _
  | @thenBlock init cond thenBlock elseBranch span =>
      rw [elseArms]
      have harm := (passes_blockBody ctx old thenBlock).body_arm hafter (follows_setup ctx init cond)
      simp only [bind_assoc] at harm
      exact harm.followedBy fun lo hi hlo =>
        keeps_spares_elseArms (Nat.lt_of_lt_of_le hafter hlo) _
  | @elseBranch init cond thenBlock elseBranch span enter l _ ih =>
      rw [elseArms]
      exact .precededBy (fun n hn => (local_within hn).keeps_arm hafter (follows_setup ctx init cond)
        (follows_blockBody ctx _ fun _ => trivial)) fun _ => ih
  | @last body span =>
      rw [elseArms]
      exact (passes_blockBody ctx old body).body_arm hafter (.pure ())

/-- The arms of an if statement, and the point where they meet. -/
theorem ElsePart.passes_if {branch : Option Stmt} {enter : PointId → Build Unit}
    (h : ElsePart ctx branch enter l) (span : Span) :
    Passes ctx old (do push; let after ← reserve span; enter after) l
      (inFrame do let after ← reserve span; elseArms ctx after branch; moveTo after) :=
  .inFrame <| .reserve span fun _ _ hafter =>
    (h.passes hafter).followedBy fun _ _ hlo => (local_spares hlo).keeps_moveTo hafter

theorem ClausePart.passes {clauses : List CaseClause}
    {enter : Option (String × Composition) → PointId → PointId → Build Unit}
    (h : ClausePart ctx clauses enter l) (binding : Option (String × Composition))
    (hafter : after.index < old) (hfork : fork.index < old) :
    Passes ctx old (enter binding after fork) l (switchClauses ctx binding after fork clauses) := by
  induction h with
  | @head exprs body span rest =>
      rw [switchClauses]
      have hbody := Passes.inFrame <| Passes.precededBy
        (fun n hn => keeps_bindSubject (local_within hn).appends span binding)
        fun _ => Passes.here ctx old body
      rw [bind_pure_unit] at hbody
      refine .precededBy (fun n hn => (local_within hn).keeps_moveTo hfork) fun _ =>
        hbody.followedBy fun lo hi hlo => ?_
      have hl : Local old (Spares lo hi) := local_spares hlo
      exact (hl.keeps_join hafter).bind fun _ =>
        hl.keeps_switchClauses ctx hafter hfork binding rest
  | @tail clause rest enter l _ ih =>
      have hrest := Passes.precededBy
        (fun n hn => (local_within hn).keeps_switchClauses ctx hafter hfork binding [clause])
        fun _ => ih
      obtain ⟨exprs, body, span⟩ := clause
      simp only [switchClauses, bind_assoc, pure_bind] at hrest ⊢
      exact hrest

/-- The clauses of a switch, with the way past them. -/
theorem ClausePart.passes_switch {clauses : List CaseClause}
    {enter : Option (String × Composition) → PointId → PointId → Build Unit}
    (h : ClausePart ctx clauses enter l) (binding : Option (String × Composition))
    (hasDefault : Bool) (span : Span) :
    Passes ctx old
      (do
        let after ← reserve span
        let fork ← current
        enter binding after fork)
      l
      (do
        let after ← reserve span
        let fork ← current
        switchClauses ctx binding after fork clauses
        unless hasDefault do
          moveTo fork
          join after
        moveTo after) := by
  refine .reserve span fun after old hafter => .current fun fork old' hold hfork => ?_
  have hafter := Nat.lt_of_lt_of_le hafter hold
  refine (h.passes binding hafter hfork).followedBy fun lo hi hlo => ?_
  have hl : Local old' (Spares lo hi) := local_spares hlo
  exact .ite (hl.keeps_moveTo hafter) <| (hl.keeps_moveTo hfork).bind fun _ =>
    (hl.keeps_join hafter).bind fun _ => hl.keeps_moveTo hafter

/-- A round of a `for` loop, which comes back to the anchor and to the exit. -/
theorem passes_forLoop {init : Option Stmt} {cond : Option Expr} {post : Option Stmt} {body : Block}
    {span : Span} (h : ∀ anchor exit old, anchor.index < old → exit.index < old →
      Passes ctx old enter l (do
        blockBody ctx body
        statementFor ctx post
        closeLoop anchor
        moveTo exit)) :
    Passes ctx 0
      (do
        push
        statementFor ctx init
        append .noop span
        evaluateFor ctx.registry cond
        enter)
      l (statement ctx (.forLoop init cond post body span)) := by
  rw [statement]
  have hinit := follows_statementFor ctx init fun _ => trivial
  have hcond : Follows True (evaluateFor ctx.registry cond) :=
    .of_appends fun ha => keeps_evaluateFor ha ctx.registry cond
  refine .inFrame <| .precededBy (fun n hn => (local_within hn).keeps hinit) fun _ =>
    .precededBy (fun n hn => .update fun s hs => (local_within hn).append s _ _ hs) fun _ => ?_
  refine .here_current fun anchor old _ hanchor =>
    .precededBy (fun n hn => (local_within hn).keeps hcond) fun _ => ?_
  refine .here_current fun exit old' hold hexit => ?_
  exact h anchor exit old' (Nat.lt_of_lt_of_le hanchor hold) hexit

/-- The switch is followed as a whole once its clauses are still to come. -/
theorem follows_clauses (ctx : BuildContext) (binding : Option (String × Composition))
    (clauses : List CaseClause) (span : Span) :
    Follows True (do
      let after ← reserve span
      let fork ← current
      switchClauses ctx binding after fork clauses
      unless clauses.any CaseClause.isDefault do
        moveTo fork
        join after
      moveTo after) :=
  follows_switch span fun after fork =>
    gathers_switchClauses ctx binding after fork clauses fun _ => trivial

/-- **The walk over a statement passes every list directly inside of it.** -/
theorem Part.passes (h : Part ctx stmt enter l) : Passes ctx 0 enter l (statement ctx stmt) := by
  have hinit : ∀ {init : Stmt} {m : Build Unit}, Follows True m →
      Passes ctx 0 push [init] (inFrame do statementFor ctx (some init); m) := by
    intro init m hm
    rw [statementFor]
    have hframe := ((Passes.single ctx 0 init).followedBy fun lo hi hlo =>
      (local_spares hlo).keeps hm).inFrame
    rwa [bind_pure_unit] at hframe
  have hexpr : ∀ {e : Option Expr}, Follows True (evaluateFor ctx.registry e) :=
    fun {e} => .of_appends fun ha => keeps_evaluateFor ha ctx.registry e
  have hone : ∀ {e : Expr}, Follows True (evaluateOne ctx.registry e) :=
    fun {e} => .of_appends fun ha => keeps_evaluateOne ha ctx.registry e
  have hopt : ∀ {e : Option Stmt}, Follows True (statementFor ctx e) :=
    fun {e} => follows_statementFor ctx e fun _ => trivial
  have hblock : ∀ {b : Block}, Follows True (blockBody ctx b) :=
    fun {b} => follows_blockBody ctx b fun _ => trivial
  cases h with
  | @block body span =>
      rw [statement]
      exact passes_blockBody ctx 0 body
  | @labeled label stmt span =>
      rw [statement]
      exact .single ctx 0 stmt
  | @arms init cond thenBlock elseBranch span enter l h =>
      rw [statement]
      have harms : Passes ctx 0 _ l _ := h.passes_if span
      simp only [elseArms, bind_assoc] at harms
      split
      · intro n s s' _ _ hrun
        cases hrun
      · exact harms
  | @forInit init cond post body span =>
      rw [statement]
      exact hinit (follows_rounds trivial ctx cond span hblock hopt)
  | @forBody init cond post body span =>
      refine passes_forLoop fun anchor exit old hanchor hexit =>
        (passes_blockBody ctx old body).followedBy fun lo hi hlo => ?_
      have hl : Local old (Spares lo hi) := local_spares hlo
      exact (hl.keeps hopt).bind fun _ => (hl.keeps_closeLoop hanchor).bind fun _ =>
        hl.keeps_moveTo hexit
  | @forPost init cond post body span =>
      have hloop : Passes ctx 0 _ [post] (statement ctx (.forLoop init cond (some post) body span)) :=
        passes_forLoop fun anchor exit old hanchor hexit =>
          .precededBy (fun n hn => (local_within hn).keeps hblock) fun _ => by
            rw [statementFor]
            refine (Passes.single ctx old post).followedBy fun lo hi hlo => ?_
            have hl : Local old (Spares lo hi) := local_spares hlo
            exact (hl.keeps_closeLoop hanchor).bind fun _ => hl.keeps_moveTo hexit
      simpa only [bind_pure_unit] using hloop
  | @rangeBody key value define subject body span =>
      rw [statement]
      have hsubject : Follows True (discard (evaluate ctx.registry subject 0)) :=
        (Follows.of_appends fun ha => keeps_evaluate ha ctx.registry subject 0).discard
      have hbinding : ∀ {e}, Follows True (rangeBinding ctx define e) :=
        fun {e} => .of_appends fun ha => keeps_rangeBinding ha ctx define e
      refine .precededBy (fun n hn => (local_within hn).keeps hsubject) fun _ => .inFrame ?_
      refine .precededBy (fun n hn => .update fun s hs => (local_within hn).append s _ _ hs)
        fun _ => .here_current fun anchor old _ hanchor => ?_
      refine .precededBy (fun n hn => (local_within hn).keeps hbinding) fun _ =>
        .precededBy (fun n hn => (local_within hn).keeps hbinding) fun _ => ?_
      refine (passes_blockBody ctx old body).followedBy fun lo hi hlo => ?_
      have hl : Local old (Spares lo hi) := local_spares hlo
      exact (hl.keeps_closeLoop hanchor).bind fun _ => hl.keeps_moveTo hanchor
  | @switchInit init tag clauses span =>
      rw [statement]
      exact hinit (hexpr.bind fun _ => follows_clauses ctx none clauses span)
  | @clauses init tag clauses span enter l h =>
      rw [statement]
      refine .inFrame (.precededBy (fun n hn => (local_within hn).keeps hopt) fun _ => ?_)
      exact .precededBy (fun n hn => (local_within hn).keeps hexpr) fun _ => h.passes_switch _ _ span
  | @typeInit init binding subject clauses span =>
      rw [statement]
      exact hinit (hone.bind fun c => follows_clauses ctx _ clauses span)
  | @typeClauses init binding subject clauses span enter l h =>
      rw [statement]
      refine .inFrame (.precededBy (fun n hn => (local_within hn).keeps hopt) fun _ => ?_)
      exact .precededBy (fun n hn => (local_within hn).keeps hone) fun c => h.passes_switch _ _ span

/-- **The walk over a list passes every list inside of it, at any depth.** -/
theorem Leads.passes {body : List Stmt} (h : Leads ctx body enter l) :
    Passes ctx 0 enter l (statements ctx body) := by
  induction h with
  | here l => exact .here ctx 0 l
  | next stmt _ ih =>
      rw [statements]
      have hstmt := follows_statement ctx stmt fun _ => trivial
      exact .precededBy (fun n hn => (local_within hn).keeps hstmt) fun _ => ih
  | inside rest hpart _ ih =>
      rw [statements]
      have hrest := follows_statements ctx rest fun _ => trivial
      exact (hpart.passes.trans ih).followedBy fun lo hi hlo => (local_spares hlo).keeps hrest

end

end Build

end SliceLineage
