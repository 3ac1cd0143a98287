import SliceLineage.Proofs.Build.Extension
import SliceLineage.Proofs.Build.Keeps
import SliceLineage.Proofs.Build.StatementLogic

/-!
# The course of the walk over a function

The walk moves its cursor in a few structured ways only. It appends transfers; it leaves a return
for a point that nothing leads to; it lets the arms of a branching statement meet at a point that is
reserved for them; and it leads the end of a loop back to the anchor of the loop. What these ways
keep, the walk keeps, however statements are nested.

* `Cursor.Course`: the structured ways, one constructor for each. Loops are possible only if the
  parameter `loops` holds.
* `Build.followsStatements`: the rules by which the walk over a statement keeps to a course, without
  loops if the statement has none. `FunctionDecl.exists_course`: so does the walk over a function.
* `Cursor.Course.grows`, `Cursor.Course.extends`, `Cursor.Course.mem_successors`: what a course adds
  to the graph, and where. `Cursor.Course.bounded`: no edge leads out of the graph.
-/

namespace SliceLineage

namespace Cursor

/-- The end of a loop leads to its anchor, unless it is there. -/
def Closes (anchor : PointId) (c c' : Cursor) : Prop :=
  c.current = anchor ∧ c' = c ∨ c.current ≠ anchor ∧ c.join anchor = (.ok (), c')

/-- A part of the walk moves the cursor from `c` to `c'`. Among the arms of a branching statement,
`hub` is the point where they meet. -/
inductive Course (loops : Prop) : Option PointId → Cursor → Cursor → Prop
  | stay {hub : Option PointId} (c : Cursor) : Course loops hub c c
  | trans {hub : Option PointId} {c c' c'' : Cursor} (h : Course loops hub c c')
      (h' : Course loops hub c' c'') : Course loops hub c c''
  | append {hub : Option PointId} (c : Cursor) {op : Operation} (hop : op.isTransfer = true)
      (span : Option Span) : Course loops hub c (c.append op span)
  | ret {hub : Option PointId} (c : Cursor) (values : List ValueId) (span : Option Span) :
      Course loops hub c (c.append (.ret values) span).detach
  /-- An arm runs to the hub, and the walk is back where the arm began. -/
  | arm {after : PointId} {c c₁ c₂ : Cursor} (h : Course loops none c c₁)
      (hjoin : c₁.join after = (.ok (), c₂)) : Course loops (some after) c (c₂.moveTo c.current)
  /-- After the other arms, the last one runs to the hub, which is new. -/
  | branch {hub : Option PointId} {c c₁ c₂ : Cursor} (span : Option Span)
      (h : Course loops (some (c.reserve span).1) (c.reserve span).2 c₁)
      (hjoin : c₁.join (c.reserve span).1 = (.ok (), c₂)) : Course loops hub c c₂
  /-- A loop is left where its head ends, and its round leads from there to the anchor. -/
  | loop {hub : Option PointId} {c c₁ c₂ c₃ : Cursor} (hloops : loops) (span : Option Span)
      (hhead : Course loops none (c.append .noop span) c₁) (hround : Course loops none c₁ c₂)
      (hclose : Closes ⟨c.graph.pointCount⟩ c₂ c₃) : Course loops hub c (c₃.moveTo c₁.current)

end Cursor

namespace Build

open Cursor (Course)

variable {loops : Prop} {hub : Option PointId} {α : Type} {s s' : BuildState}

/-! ## Steps of the cursor -/

theorem exists_of_run_join {p : PointId} (h : (join p).run s = .ok ((), s')) :
    ∃ c, s.cursor.join p = (.ok (), c) ∧ s' = { s with cursor := c } := by
  rcases hjoin : s.cursor.join p with ⟨answer, c⟩
  rw [run_join hjoin] at h
  cases answer with
  | error e => cases h
  | ok _ =>
      cases h
      exact ⟨c, rfl, rfl⟩

theorem closes_of_run_closeLoop {anchor : PointId} (h : (closeLoop anchor).run s = .ok ((), s')) :
    Cursor.Closes anchor s.cursor s'.cursor := by
  have hrun : (if s.cursor.current = anchor then (pure () : Build Unit) else join anchor).run s =
      .ok ((), s') := h
  split at hrun
  · rename_i hat
    cases hrun
    exact Or.inl ⟨hat, rfl⟩
  · rename_i hne
    obtain ⟨c, hjoin, rfl⟩ := exists_of_run_join hrun
    exact Or.inr ⟨hne, hjoin⟩

/-! ## Steps that keep to a course -/

theorem appends_course (loops : Prop) (hub : Option PointId) (c : Cursor) :
    Appends fun s => Course loops hub c s.cursor where
  scopes _ _ h := h
  append s _ span hop h := h.trans (.append s.cursor hop (some span))

/-- The step prolongs every course. -/
def Follows (loops : Prop) (m : Build α) : Prop :=
  ∀ hub c, Keeps (fun s => Course loops hub c s.cursor) m

theorem Follows.of_run {m : Build α} (hm : Follows loops m) {a : α} (h : m.run s = .ok (a, s')) :
    Course loops hub s.cursor s'.cursor :=
  hm hub s.cursor s a s' (.stay _) h

theorem Follows.bind {β : Type} {m : Build α} {k : α → Build β} (hm : Follows loops m)
    (hk : ∀ a, Follows loops (k a)) : Follows loops (m >>= k) :=
  fun hub c => (hm hub c).bind fun a => hk a hub c

theorem Follows.discard {m : Build α} (hm : Follows loops m) :
    Follows loops (Functor.discard m) :=
  fun hub c => (hm hub c).discard

theorem Follows.pure (a : α) : Follows loops (Pure.pure a : Build α) := fun _ _ => .pure a

theorem Follows.throw (e : AnalysisError) : Follows loops (MonadExcept.throw e : Build α) :=
  fun _ _ => .throw e

/-- A step that only changes names and appends transfers. -/
theorem Follows.of_appends {m : Build α} (h : ∀ {inv}, Appends inv → Keeps inv m) :
    Follows loops m :=
  fun hub c => h (appends_course loops hub c)

theorem follows_inFrame {step : Build Unit} (h : Follows loops step) :
    Follows loops (inFrame step) :=
  fun hub c => keeps_inFrame (appends_course loops hub c) (h hub c)

theorem follows_returnWith (ctx : BuildContext) (results : List Expr) (span : Span) :
    Follows loops (returnWith ctx results span) := by
  refine (Follows.of_appends fun ha => keeps_returnValues ha ctx results span).bind
    fun values hub c s _ s' hs hrun => ?_
  cases hrun
  exact hs.trans (.ret s.cursor values (some span))

/-- The last arm has come to the hub; the walk may have moved since. -/
def Merged (loops : Prop) (after : PointId) (c : Cursor) (s : BuildState) : Prop :=
  ∃ c₁, Course loops (some after) c c₁ ∧ c₁.join after = (.ok (), s.cursor.moveTo after)

/-- The step brings the last arm to the hub. -/
def Merges (loops : Prop) (after : PointId) (m : Build Unit) : Prop :=
  ∀ c s s', Course loops (some after) c s.cursor → m.run s = .ok ((), s') →
    Merged loops after c s'

theorem merged_of_join {after : PointId} {c c₁ c₂ : Cursor} (h : Course loops (some after) c c₁)
    (hjoin : c₁.join after = (.ok (), c₂)) (hgraph : s.cursor.graph = c₂.graph) :
    Merged loops after c s := by
  refine ⟨c₁, h, hjoin.trans ?_⟩
  rw [Cursor.moveTo, hgraph, ← (Cursor.join_cases hjoin).1]

theorem keeps_course_arm {after : PointId} {setup body : Build Unit} (hs : Follows loops setup)
    (hb : Follows loops body) (c : Cursor) :
    Keeps (fun s => Course loops (some after) c s.cursor) (arm after setup body) := by
  refine (hs _ c).bind fun _ s _ s' hc hrun => ?_
  have hrun : (do body; join after; moveTo s.cursor.current : Build Unit).run s = .ok ((), s') :=
    hrun
  obtain ⟨_, s₁, hbody, hrun⟩ := exists_of_run_bind hrun
  obtain ⟨_, s₂, hjoin, hmove⟩ := exists_of_run_bind hrun
  obtain ⟨c₂, hc₂, rfl⟩ := exists_of_run_join hjoin
  cases hmove
  exact hc.trans (.arm (hb.of_run hbody) hc₂)

/-- The last arm of an if statement that has a final else. -/
theorem merges_arm {after : PointId} {body : Build Unit} (hb : Follows loops body) :
    Merges loops after (arm after (return) body) := by
  intro c s s' hc hrun
  have hrun : (do body; join after; moveTo s.cursor.current : Build Unit).run s = .ok ((), s') :=
    hrun
  obtain ⟨_, s₁, hbody, hrun⟩ := exists_of_run_bind hrun
  obtain ⟨_, s₂, hjoin, hmove⟩ := exists_of_run_bind hrun
  obtain ⟨c₂, hc₂, rfl⟩ := exists_of_run_join hjoin
  cases hmove
  exact merged_of_join (hc.trans (hb.of_run hbody)) hc₂ rfl

theorem merges_join (after : PointId) : Merges loops after (join after) := by
  intro c s s' hc hrun
  obtain ⟨c₂, hc₂, rfl⟩ := exists_of_run_join hrun
  exact merged_of_join hc hc₂ rfl

theorem Merges.bind {after : PointId} {m m' : Build Unit}
    (hm : ∀ c, Keeps (fun s => Course loops (some after) c s.cursor) m)
    (hm' : Merges loops after m') : Merges loops after (do m; m') := by
  intro c s s' hc hrun
  obtain ⟨_, s₁, hrun, hrun'⟩ := exists_of_run_bind hrun
  exact hm' c s₁ s' (hm c s _ s₁ hc hrun) hrun'

/-- The arms of a statement meet at a reserved point, where the walk goes on. -/
theorem follows_branch {m : PointId → Build Unit} (span : Span)
    (hm : ∀ after, Merges loops after (m after)) :
    Follows loops (do let after ← reserve span; m after; moveTo after) := by
  intro hub c s _ s' hc hrun
  have hrun : (do m (s.cursor.reserve (some span)).1; moveTo (s.cursor.reserve (some span)).1 :
      Build Unit).run { s with cursor := (s.cursor.reserve (some span)).2 } = .ok ((), s') := hrun
  obtain ⟨_, s₁, hmeet, hmove⟩ := exists_of_run_bind hrun
  obtain ⟨c₁, hc₁, hjoin⟩ := hm _ _ _ s₁ (.stay _) hmeet
  cases hmove
  exact hc.trans (.branch (some span) hc₁ hjoin)

/-- A loop whose head ends where the loop is left. -/
theorem follows_loop (hloops : loops) {head round : Build Unit} (span : Span)
    (hhead : Follows loops head) (hround : Follows loops round) :
    Follows loops (do
      append .noop span
      let anchor ← current
      head
      let exit ← current
      round
      closeLoop anchor
      moveTo exit) := by
  intro hub c s _ s' hc hrun
  have hrun : (do
      head
      let exit ← current
      round
      closeLoop ⟨s.cursor.graph.pointCount⟩
      moveTo exit : Build Unit).run { s with cursor := s.cursor.append .noop (some span) } =
        .ok ((), s') := hrun
  obtain ⟨_, s₁, hrun₁, hrun⟩ := exists_of_run_bind hrun
  have hrun : (do
      round
      closeLoop ⟨s.cursor.graph.pointCount⟩
      moveTo s₁.cursor.current : Build Unit).run s₁ = .ok ((), s') := hrun
  obtain ⟨_, s₂, hrun₂, hrun⟩ := exists_of_run_bind hrun
  obtain ⟨_, s₃, hclose, hmove⟩ := exists_of_run_bind hrun
  cases hmove
  exact hc.trans (.loop hloops (some span) (hhead.of_run hrun₁) (hround.of_run hrun₂)
    (closes_of_run_closeLoop hclose))

/-- The rounds of a `for` loop, after its init statement. -/
theorem follows_rounds (hloops : loops) (ctx : BuildContext) (cond : Option Expr)
    {body post : Build Unit} (span : Span) (hbody : Follows loops body)
    (hpost : Follows loops post) :
    Follows loops (do
      append .noop span
      let anchor ← current
      evaluateFor ctx.registry cond
      let exit ← current
      body
      post
      closeLoop anchor
      moveTo exit) := by
  have hloop := follows_loop hloops span
    (Follows.of_appends fun ha => keeps_evaluateFor ha ctx.registry cond)
    (hbody.bind fun _ => hpost)
  simpa only [bind_assoc] using hloop

/-! ## Statements -/

/-- Between two clauses of a switch: wherever the cursor stands, a course leads to `fork`. -/
def Forks (loops : Prop) (after fork : PointId) (c : Cursor) (s : BuildState) : Prop :=
  Course loops (some after) c (s.cursor.moveTo fork)

/-- The step walks over clauses. The last one has come to the hub, unless there was none; one is
the default clause if `hasDefault` holds. -/
def Gathers (loops : Prop) (after fork : PointId) (hasDefault : Bool) (m : Build Unit) : Prop :=
  ∀ c s s', Forks loops after fork c s → m.run s = .ok ((), s') →
    Forks loops after fork c s' ∧
      (Merged loops after c s ∨ hasDefault = true → Merged loops after c s')

theorem gathers_none (after fork : PointId) : Gathers loops after fork false (pure ()) := by
  intro c s s' hs hrun
  cases hrun
  exact ⟨hs, fun hor => hor.resolve_right Bool.false_ne_true⟩

theorem gathers_clause {after fork : PointId} (isDefault : Bool) {hasDefault : Bool}
    {body rest : Build Unit} (hbody : Follows loops body)
    (hrest : Gathers loops after fork hasDefault rest) :
    Gathers loops after fork (isDefault || hasDefault)
      (do moveTo fork; body; join after; rest) := by
  intro c s s' hs hrun
  obtain ⟨_, s₁, hmove, hrun⟩ := exists_of_run_bind hrun
  cases hmove
  obtain ⟨_, s₂, hrun₂, hrun⟩ := exists_of_run_bind hrun
  obtain ⟨_, s₃, hjoin, hrun⟩ := exists_of_run_bind hrun
  obtain ⟨c₃, hc₃, rfl⟩ := exists_of_run_join hjoin
  have hmerged : Merged loops after c { s₂ with cursor := c₃ } :=
    merged_of_join (hs.trans (hbody.of_run hrun₂)) hc₃ rfl
  obtain ⟨hback, hlast⟩ := hrest c _ s' (hs.trans (.arm (hbody.of_run hrun₂) hc₃)) hrun
  exact ⟨hback, fun _ => hlast (Or.inl hmerged)⟩

/-- The clauses of a switch, and the way past them if none is the default clause. -/
theorem follows_switch {clauses : PointId → PointId → Build Unit} {hasDefault : Bool} (span : Span)
    (hclauses : ∀ after fork, Gathers loops after fork hasDefault (clauses after fork)) :
    Follows loops (do
      let after ← reserve span
      let fork ← current
      clauses after fork
      unless hasDefault do
        moveTo fork
        join after
      moveTo after) := by
  have hmerges : ∀ after, Merges loops after (do
      let fork ← current
      clauses after fork
      if hasDefault then pure () else do moveTo fork; join after) := by
    intro after c s s' hc hrun
    have hrun : (do
        clauses after s.cursor.current
        if hasDefault then pure () else do moveTo s.cursor.current; join after :
          Build Unit).run s = .ok ((), s') := hrun
    obtain ⟨_, s₁, hrun₁, hrun⟩ := exists_of_run_bind hrun
    obtain ⟨hback, hmerged⟩ := hclauses after s.cursor.current c s s₁ hc hrun₁
    split at hrun
    · rename_i hdefault
      cases hrun
      exact hmerged (Or.inr hdefault)
    · obtain ⟨_, s₂, hmove, hjoin⟩ := exists_of_run_bind hrun
      cases hmove
      exact merges_join after c { s₁ with cursor := s₁.cursor.moveTo _ } s' hback hjoin
  have hbranch := follows_branch span hmerges
  simp only [bind_assoc] at hbranch
  cases hasDefault with
  | true => simpa only [if_true, pure_bind] using hbranch
  | false => simpa only [Bool.false_eq_true, if_false, bind_assoc] using hbranch

theorem loops_of_left {k k' : Stmt.Reading} (h : (k ++ k').loopFree = false → loops)
    (hk : k.loopFree = false) : loops := by
  refine h ?_
  show (k.loopFree && k'.loopFree) = false
  rw [hk, Bool.false_and]

theorem loops_of_right {k k' : Stmt.Reading} (h : (k ++ k').loopFree = false → loops)
    (hk' : k'.loopFree = false) : loops := by
  refine h ?_
  show (k.loopFree && k'.loopFree) = false
  rw [hk', Bool.and_false]

/-- The walk over statements keeps to a course, without loops if none was read of them. -/
def followsStatements (loops : Prop) (ctx : BuildContext) (r : Renaming) :
    StatementLogic ctx ctx.registry r where
  judge k _ _ m _ := (k.loopFree = false → loops) → Follows loops m
  arms after k _ _ m _ := (k.loopFree = false → loops) → Merges loops after m
  clauses after fork d k _ _ m _ := (k.loopFree = false → loops) → Gathers loops after fork d m
  idle _ := .pure ()
  refuse _ _ _ _ _ _ := .throw _
  seq hm hn h := (hm (loops_of_left h)).bind fun _ => hn (loops_of_right h)
  inFrame hm h := follows_inFrame (hm h)
  effect e _ := (Follows.of_appends fun ha => keeps_evaluate ha ctx.registry e 0).discard
  define _ values span _ := .of_appends fun ha =>
    (keeps_evaluateValues ha ctx.registry span values _).bind fun _ => keeps_defineNames ha span _
  assign _ values span _ := .of_appends fun ha =>
    (keeps_evaluateValues ha ctx.registry span values _).bind fun _ =>
      keeps_assignTargets ha ctx span _
  ret results span _ := follows_returnWith ctx results span
  rangeBinding define e _ := .of_appends fun ha => keeps_rangeBinding ha ctx define e
  subject e _ hm h := (Follows.of_appends fun ha => keeps_evaluateOne ha ctx.registry e).bind
    fun c => hm c (loops_of_right h)
  bindSubject _ span _ _ := .of_appends fun ha => keeps_bindSubject ha span _
  arm hsetup hbody hrest h := .bind (keeps_course_arm (hsetup (loops_of_left (loops_of_left h)))
    (hbody (loops_of_right (loops_of_left h)))) (hrest (loops_of_right h))
  lastArm hbody h := merges_arm (hbody h)
  noArm _ := merges_join _
  refuseArm _ _ _ _ _ _ _ _ _ _ hrun := by cases hrun
  branch span hm h := follows_branch span fun after => hm after h
  loop span hhead hround h := follows_loop (h rfl) span (hhead fun _ => h rfl)
    (hround fun _ => h rfl)
  noClause _ := gathers_none _ _
  clause isDefault hbody hrest h :=
    gathers_clause isDefault (hbody (loops_of_left h)) (hrest (loops_of_right h))
  switch span hm h := follows_switch span fun after fork => hm after fork h

section

variable (ctx : BuildContext)

/-- **The walk over a statement keeps to a course**, without loops if the statement has none. -/
theorem follows_statement (s : Stmt) (h : s.loopFree = false → loops) :
    Follows loops (statement ctx s) :=
  (followsStatements loops ctx default).statement s .empty h

theorem follows_statements (stmts : List Stmt) (h : Stmt.allLoopFree stmts = false → loops) :
    Follows loops (statements ctx stmts) :=
  (followsStatements loops ctx default).statements stmts .empty h

theorem follows_statementFor (s : Option Stmt) (h : Stmt.loopFreeIfAny s = false → loops) :
    Follows loops (statementFor ctx s) :=
  (followsStatements loops ctx default).statementFor s .empty h

theorem follows_blockBody (b : Block) (h : Stmt.blockLoopFree b = false → loops) :
    Follows loops (blockBody ctx b) :=
  (followsStatements loops ctx default).blockBody b .empty h

theorem merges_elseArms (after : PointId) (s : Option Stmt)
    (h : Stmt.loopFreeIfAny s = false → loops) : Merges loops after (elseArms ctx after s) :=
  (followsStatements loops ctx default).elseArms after s .empty h

theorem gathers_switchClauses (binding : Option (String × Composition)) (after fork : PointId)
    (clauses : List CaseClause) (h : Stmt.clausesLoopFree clauses = false → loops) :
    Gathers loops after fork (clauses.any CaseClause.isDefault)
      (switchClauses ctx binding after fork clauses) := by
  obtain ⟨_, _, _, _, hclauses⟩ :=
    (followsStatements loops ctx default).exists_clauses binding after fork clauses
  exact hclauses h

end

end Build

/-- What the walk over a body needs to know about the function. -/
abbrev FunctionDecl.context (f : FunctionDecl) (registry : Registry) : BuildContext :=
  ⟨registry, f.arity, f.scopes.1⟩

/-- **The walk over a function keeps to a course**, without loops if the body has none. -/
theorem FunctionDecl.exists_course {registry : Registry} {f : FunctionDecl} {g : FlowGraph}
    (loops : Prop) (h : f.graph registry = .ok g) (hloops : f.loopFree = false → loops) :
    ∃ s : BuildState, (Build.blockBody (f.context registry) f.body).run
        ⟨.start (some f.span), f.scopes.2⟩ = .ok ((), s) ∧
      s.cursor.graph = g ∧ Cursor.Course loops none (.start (some f.span)) s.cursor := by
  unfold graph at h
  cases hrun : (Build.blockBody (f.context registry) f.body).run
      ⟨.start (some f.span), f.scopes.2⟩ with
  | error e =>
      simp only [hrun] at h
      cases h
  | ok result =>
      simp only [hrun] at h
      cases h
      exact ⟨result.2, rfl, rfl, (Build.follows_blockBody _ f.body hloops).of_run hrun⟩

namespace Cursor

variable {loops : Prop} {hub : Option PointId} {anchor : PointId} {c c' : Cursor}

/-! ## What a course adds -/

theorem Closes.grows (h : Closes anchor c c') : c.graph.Grows c'.graph := by
  rcases h with ⟨-, rfl⟩ | ⟨-, hjoin⟩
  · exact .refl _
  · exact grows_join hjoin

theorem Closes.frame (h : Closes anchor c c') : c.Frame c.current c' := by
  rcases h with ⟨-, rfl⟩ | ⟨-, hjoin⟩
  · exact .refl _ _
  · exact frame_join hjoin

/-- A join adds an empty edge to its target, if it adds one. -/
theorem mem_successors_of_join {after q : PointId} {t : Transition}
    (h : c.join after = (.ok (), c'))
    (ht : t ∈ c'.graph.successors q) :
    t ∈ c.graph.successors q ∨ t.op = .noop ∧ t.target = after := by
  obtain ⟨-, ⟨hgraph, -⟩ | ⟨hgraph, -⟩⟩ := join_cases h
  · exact Or.inl (hgraph ▸ ht)
  · rw [hgraph] at ht
    rcases FlowGraph.mem_successors_insert.mp ht with ht | ⟨-, rfl⟩
    · exact Or.inl ht
    · exact Or.inr ⟨rfl, rfl⟩

theorem Closes.mem_successors (h : Closes anchor c c') {q : PointId} {t : Transition}
    (ht : t ∈ c'.graph.successors q) :
    t ∈ c.graph.successors q ∨ t.op = .noop ∧ t.target = anchor := by
  rcases h with ⟨-, rfl⟩ | ⟨-, hjoin⟩
  · exact Or.inl ht
  · exact mem_successors_of_join hjoin ht

/-- An appended edge leads to a new point. -/
theorem mem_successors_of_append {op : Operation} {span : Option Span} {q : PointId}
    {t : Transition} (ht : t ∈ (c.append op span).graph.successors q) :
    t ∈ c.graph.successors q ∨ q = c.current ∧ t = ⟨⟨c.graph.pointCount⟩, op⟩ := by
  rw [successors_append] at ht
  split at ht
  · rcases List.mem_append.mp ht with ht | ht
    · exact Or.inl ht
    · exact Or.inr ⟨Eq.symm ‹_›, List.mem_singleton.mp ht⟩
  · exact Or.inl ht

namespace Course

theorem grows (h : Course loops hub c c') : c.graph.Grows c'.graph := by
  induction h with
  | stay c => exact .refl _
  | trans _ _ ih ih' => exact ih.trans ih'
  | append c hop span => exact grows_append _ _ _
  | ret c values span => exact (grows_append _ _ _).trans (FlowGraph.grows_allocate _ none)
  | arm _ hjoin ih =>
      have hjoined := grows_join hjoin
      exact ih.trans hjoined
  | branch span _ hjoin ih =>
      exact (FlowGraph.grows_allocate _ span).trans (ih.trans (grows_join hjoin))
  | loop _ span _ _ hclose ihhead ihround =>
      exact (grows_append _ _ _).trans (ihhead.trans (ihround.trans hclose.grows))

/-- **A course adds edges to new points, and empty edges to its hub.** -/
theorem mem_successors (h : Course loops hub c c') {q : PointId} {t : Transition}
    (ht : t ∈ c'.graph.successors q) : t ∈ c.graph.successors q ∨
      c.graph.pointCount ≤ t.target.index ∨ t.op = .noop ∧ hub = some t.target := by
  induction h with
  | stay c => exact Or.inl ht
  | trans h _ ih ih' =>
      rcases ih' ht with ht | hnew | hhub
      · exact ih ht
      · exact Or.inr (Or.inl (Nat.le_trans h.grows.points hnew))
      · exact Or.inr (Or.inr hhub)
  | append c hop span =>
      rcases mem_successors_of_append ht with ht | ⟨-, rfl⟩
      · exact Or.inl ht
      · exact Or.inr (Or.inl (Nat.le_refl _))
  | ret c values span =>
      rcases mem_successors_of_append (FlowGraph.successors_allocate _ none q ▸ ht) with
        ht | ⟨-, rfl⟩
      · exact Or.inl ht
      · exact Or.inr (Or.inl (Nat.le_refl _))
  | arm _ hjoin ih =>
      rcases mem_successors_of_join hjoin ht with ht | ⟨hop, rfl⟩
      · rcases ih ht with ht | hnew | ⟨-, hhub⟩
        · exact Or.inl ht
        · exact Or.inr (Or.inl hnew)
        · cases hhub
      · exact Or.inr (Or.inr ⟨hop, rfl⟩)
  | @branch _ c _ _ span h hjoin ih =>
      have hnew : c.graph.pointCount ≤ (c.reserve span).2.graph.pointCount :=
        (FlowGraph.grows_allocate _ _).points
      rcases mem_successors_of_join hjoin ht with ht | ⟨-, htarget⟩
      · rcases ih ht with ht | hle | ⟨-, hhub⟩
        · exact Or.inl (FlowGraph.successors_allocate _ _ q ▸ ht)
        · exact Or.inr (Or.inl (Nat.le_trans hnew hle))
        · rw [← Option.some.inj hhub]
          exact Or.inr (Or.inl (Nat.le_refl _))
      · rw [htarget]
        exact Or.inr (Or.inl (Nat.le_refl _))
  | @loop _ c _ _ _ _ span hhead _ hclose ihhead ihround =>
      have hnew : c.graph.pointCount ≤ (c.append .noop span).graph.pointCount :=
        (grows_append _ _ _).points
      rcases hclose.mem_successors ht with ht | ⟨-, htarget⟩
      · rcases ihround ht with ht | hle | ⟨-, hhub⟩
        · rcases ihhead ht with ht | hle | ⟨-, hhub⟩
          · rcases mem_successors_of_append ht with ht | ⟨-, rfl⟩
            · exact Or.inl ht
            · exact Or.inr (Or.inl (Nat.le_refl _))
          · exact Or.inr (Or.inl (Nat.le_trans hnew hle))
          · cases hhub
        · exact Or.inr (Or.inl (Nat.le_trans hnew (Nat.le_trans hhead.grows.points hle)))
        · cases hhub
      · rw [htarget]
        exact Or.inr (Or.inl (Nat.le_refl _))

/-- The operations that a course adds are transfers, returns and empty ones. -/
theorem allOps {ok : Operation → Prop} (h : Course loops hub c c')
    (htransfer : ∀ op, op.isTransfer = true → ok op) (hret : ∀ values, ok (.ret values))
    (hnoop : ok .noop) (hc : c.graph.AllOps ok) : c'.graph.AllOps ok := by
  have hclosed : ∀ {anchor : PointId} {c c' : Cursor}, Closes anchor c c' → c.graph.AllOps ok →
      c'.graph.AllOps ok := by
    rintro _ c c' (⟨-, rfl⟩ | ⟨-, hjoin⟩) hc
    · exact hc
    · exact allOps_join hjoin hc hnoop
  induction h with
  | stay c => exact hc
  | trans _ _ ih ih' => exact ih' (ih hc)
  | append c hop span => exact allOps_append hc (htransfer _ hop) span
  | ret c values span => exact (allOps_append hc (hret values) span).allocate none
  | arm _ hjoin ih =>
      have hjoined := allOps_join hjoin (ih hc) hnoop
      exact hjoined
  | branch span _ hjoin ih => exact allOps_join hjoin (ih (hc.allocate span)) hnoop
  | loop _ span _ _ hclose ihhead ihround =>
      have hclosed := hclosed hclose (ihround (ihhead (allOps_append hc hnoop span)))
      exact hclosed

end Course

/-- **A course adds edges where it begins and at new points**, and it ends at one of these. -/
theorem Course.extends (h : Course loops hub c c') (hc : c.Inside)
    (hhub : ∀ after ∈ hub, c.Apart after) : c.Extends c' := by
  induction h with
  | stay c => exact .refl hc
  | trans _ _ ih ih' =>
      have hfirst := ih hc hhub
      exact hfirst.trans (ih' hfirst.inside fun after ha => (hhub after ha).extends hfirst)
  | append c hop span => exact extends_append _ _ _
  | ret c values span => exact (extends_append _ _ _).trans (extends_detach _)
  | arm _ hjoin ih =>
      have hbody := ih hc (by simp)
      exact (hbody.frame_trans (frame_join hjoin)).extends hc
  | @branch _ c _ c₂ span _ hjoin ih =>
      have hapart := apart_reserve hc span
      have harms := ih hapart.inside fun after ha => Option.mem_some.mp ha ▸ hapart
      have hframe := harms.frame_trans (frame_join hjoin)
      have hcurrent := (join_cases hjoin).1
      refine ⟨(c.frame_reserve _ span).trans hframe (Or.inl rfl), Or.inr ?_, ?_⟩
      · rw [hcurrent]
        exact Nat.le_refl _
      · show c₂.current.index < _
        rw [hcurrent]
        exact Nat.lt_of_lt_of_le hapart.known hframe.points
  | @loop _ c _ _ _ _ span _ _ hclose ihhead ihround =>
      have hanchor := extends_append c .noop span
      have hhead := ihhead hanchor.inside (by simp)
      have hround := ihround hhead.inside (by simp)
      exact (hanchor.trans hhead).trans ((hround.frame_trans hclose.frame).extends hhead.inside)

/-! ## Bounds -/

/-- The cursor stands at a point of its graph, and all edges join such points. -/
structure Bounded (c : Cursor) : Prop where
  inside : c.Inside
  sources : ∀ q, ∀ t ∈ c.graph.successors q, q.index < c.graph.pointCount
  targets : ∀ q, ∀ t ∈ c.graph.successors q, t.target.index < c.graph.pointCount

theorem bounded_start (span : Option Span) : (start span).Bounded := by
  have hnone : ∀ q, (start span).graph.successors q = [] := successors_start span
  refine ⟨?_, by simp [hnone], by simp [hnone]⟩
  cases span <;> exact Nat.zero_lt_one

/-- Nothing leaves a point that is not there yet. -/
theorem Bounded.successors_new (hc : c.Bounded) {q : PointId} (hq : c.graph.pointCount ≤ q.index) :
    c.graph.successors q = [] :=
  List.eq_nil_iff_forall_not_mem.mpr fun t ht => Nat.not_lt_of_le hq (hc.sources q t ht)

theorem Bounded.moveTo (hc : c.Bounded) {q : PointId} (hq : q.index < c.graph.pointCount) :
    (c.moveTo q).Bounded :=
  ⟨hq, hc.sources, hc.targets⟩

theorem Bounded.append (hc : c.Bounded) (op : Operation) (span : Option Span) :
    (c.append op span).Bounded := by
  have hpoints := (grows_append c op span).points
  have hinside := (extends_append c op span).inside
  refine ⟨hinside, fun q t ht => ?_, fun q t ht => ?_⟩
  · rcases mem_successors_of_append ht with ht | ⟨rfl, -⟩
    · exact Nat.lt_of_lt_of_le (hc.sources q t ht) hpoints
    · exact Nat.lt_of_lt_of_le hc.inside hpoints
  · rcases mem_successors_of_append ht with ht | ⟨-, rfl⟩
    · exact Nat.lt_of_lt_of_le (hc.targets q t ht) hpoints
    · exact hinside

theorem Bounded.reserve (hc : c.Bounded) (span : Option Span) : (c.reserve span).2.Bounded := by
  have hpoints := (c.graph.grows_allocate span).points
  refine ⟨Nat.lt_of_lt_of_le hc.inside hpoints, fun q t ht => ?_, fun q t ht => ?_⟩
  · exact Nat.lt_of_lt_of_le (hc.sources q t (FlowGraph.successors_allocate _ _ q ▸ ht)) hpoints
  · exact Nat.lt_of_lt_of_le (hc.targets q t (FlowGraph.successors_allocate _ _ q ▸ ht)) hpoints

theorem Bounded.detach (hc : c.Bounded) : c.detach.Bounded :=
  (hc.reserve none).moveTo (Nat.lt_succ_self _)

theorem Bounded.join (hc : c.Bounded) {q : PointId} (hq : q.index < c.graph.pointCount)
    (hjoin : c.join q = (.ok (), c')) : c'.Bounded := by
  have hpoints := pointCount_join hjoin
  refine ⟨?_, fun o t ht => ?_, fun o t ht => ?_⟩
  · show c'.current.index < c'.graph.pointCount
    rw [(join_cases hjoin).1, hpoints]
    exact hq
  · rw [hpoints]
    by_cases ho : o.index < c.graph.pointCount
    · exact ho
    · have hne : o ≠ c.current := fun he => ho (he ▸ hc.inside)
      rw [successors_join hjoin hne] at ht
      exact hc.sources o t ht
  · rw [hpoints]
    rcases mem_successors_of_join hjoin ht with ht | ⟨-, htarget⟩
    · exact hc.targets o t ht
    · rw [htarget]
      exact hq

theorem Bounded.closes (hc : c.Bounded) (hanchor : anchor.index < c.graph.pointCount)
    (h : Closes anchor c c') : c'.Bounded := by
  rcases h with ⟨-, rfl⟩ | ⟨-, hjoin⟩
  · exact hc
  · exact hc.join hanchor hjoin

/-- **A course stays in its graph.** -/
theorem Course.bounded (h : Course loops hub c c')
    (hhub : ∀ after ∈ hub, after.index < c.graph.pointCount) (hc : c.Bounded) : c'.Bounded := by
  induction h with
  | stay c => exact hc
  | trans h _ ih ih' =>
      exact ih' (fun after ha => Nat.lt_of_lt_of_le (hhub after ha) h.grows.points) (ih hhub hc)
  | append c hop span => exact hc.append _ span
  | ret c values span => exact (hc.append _ span).detach
  | arm h hjoin ih =>
      have hbody := ih (by simp) hc
      have hpoints := h.grows.points
      have hjoined := hbody.join (Nat.lt_of_lt_of_le (hhub _ rfl) hpoints) hjoin
      exact hjoined.moveTo (Nat.lt_of_lt_of_le hc.inside (h.grows.trans (grows_join hjoin)).points)
  | @branch _ c _ _ span h hjoin ih =>
      have hafter : (c.reserve span).1.index < (c.reserve span).2.graph.pointCount := by
        rw [pointCount_reserve]
        exact Nat.lt_succ_self _
      have harms := ih (fun after ha => Option.mem_some.mp ha ▸ hafter) (hc.reserve span)
      exact harms.join (Nat.lt_of_lt_of_le hafter h.grows.points) hjoin
  | @loop _ c _ _ _ _ span hhead hround hclose ihhead ihround =>
      have hanchor := hc.append .noop span
      have hhead' := ihhead (by simp) hanchor
      have hround' := ihround (by simp) hhead'
      have hclosed := hround'.closes
        (Nat.lt_of_lt_of_le hanchor.inside (hhead.grows.trans hround.grows).points) hclose
      exact hclosed.moveTo
        (Nat.lt_of_lt_of_le hhead'.inside (hround.grows.trans hclose.grows).points)

end Cursor

end SliceLineage
