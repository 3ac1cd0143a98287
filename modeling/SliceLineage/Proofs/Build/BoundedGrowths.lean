import Mathlib
import SliceLineage.Proofs.Build.GrownValues
import SliceLineage.Proofs.Build.Parallel
import SliceLineage.Proofs.Build.StatementLogic
import SliceLineage.Proofs.Build.Temporaries

/-!
# Functions that grow bounded slices only

The growths of a function are the calls of `append` that its walk comes to, at places where no
declaration hides the name. If the first argument of each of them is a bounded slice expression, the
values that are grown are outputs of such expressions, and nothing but these expressions stores
anything in them.

* `FunctionDecl.growths`: the argument lists of the growths, read off the tree.
* `FunctionDecl.BoundsGrowths`: each first argument is a bounded slice expression.
* `Build.Settles`: a construction step leads from detached states to detached states, and the names
  in scope are those that are seen; `Build.settlesStatements`: the rules by which the walk over a
  statement does so.
* `FunctionDecl.detached_graph`: what follows for the graph of a function.
-/

namespace SliceLineage

/-! ## Growths of statements -/

namespace FunctionDecl

/-- The argument lists of the growths of a function. -/
def growths (f : FunctionDecl) : List (List Expr) := f.body.growths f.heading

/-- The first argument of each growth is, parentheses aside, a bounded slice expression. -/
def BoundsGrowths (f : FunctionDecl) : Prop :=
  ∀ args ∈ f.growths, ∀ e ∈ args.head?, e.isBounded = true

instance (f : FunctionDecl) : Decidable f.BoundsGrowths :=
  inferInstanceAs (Decidable (∀ args ∈ f.growths, ∀ e ∈ args.head?, e.isBounded = true))

end FunctionDecl

/-! ## Names that are seen -/

namespace Names

/-- The names that are seen are those in scope. -/
def Shows (ns : Names) (s : Scopes) : Prop :=
  ns.visible.map Prod.fst = s.frames.flatten.map Prod.fst

variable {ns : Names} {s : Scopes}

theorem isSome_lookup {β : Type} (l : List (String × β)) (name : String) :
    (l.lookup name).isSome = (l.map Prod.fst).contains name := by
  induction l with
  | nil => rfl
  | cons b l ih =>
      rw [List.lookup_cons, List.map_cons, List.contains_cons, ← ih]
      cases name == b.1 <;> rfl

/-- A name is hidden in scope where it refers to a declaration. -/
theorem Shows.isSome_lookup? (h : ns.Shows s) (name : String) (hname : name ≠ Scopes.blankName) :
    (s.lookup? name).isSome = (ns.resolve name).isSome := by
  rw [Scopes.lookup?, if_neg hname, Scopes.findSome?_lookup, resolve, isSome_lookup,
    isSome_lookup, h]

theorem Shows.bring (h : ns.Shows s) (outer : Names) (name : String) :
    (ns.bring (outer.next? name)).Shows (s.declare name).2 := by
  by_cases hname : name = Scopes.blankName
  · subst hname
    have hnone : outer.next? Scopes.blankName = none := if_pos rfl
    rw [hnone]
    exact h
  · have hsome : outer.next? name = some (name, outer.declared.length) := if_neg hname
    rw [hsome, Scopes.declare_eq _ hname, Shows, Scopes.flatten_bind]
    exact congrArg (name :: ·) h

theorem Shows.declareAll (names : List String) : ∀ {ns : Names} {s : Scopes}, ns.Shows s →
    (ns.declareAll names).Shows (s.declareAll names).2 := by
  induction names with
  | nil => exact fun h => h
  | cons name names ih =>
      intro ns s h
      exact ih ((show (ns.record (ns.next? name)).Shows s from h).bring ns name)

/-- What is asked of the growths in some expressions. -/
theorem boundsGrowths {es : List Expr} (h : BoundsGrowths false (ns.growths es)) :
    BoundsGrowths (ns.resolve Registry.appendName).isSome (es.flatMap Expr.growths) := by
  intro hshown
  have h := h rfl
  rwa [growths, hshown] at h

end Names

/-! ## Operations that grow nothing -/

theorem ValueId.free_blank {n : Nat} {ops : List Operation} : ValueId.Free n ops .blank := by
  refine ⟨ValueId.below_blank n, fun op _ hgrown => ?_⟩
  cases op with
  | call func inputs outputs =>
      obtain ⟨-, c, -, hv⟩ := Operation.mem_grown_call hgrown
      exact (Composition.mem_followed.mp hv).1 rfl
  | _ => cases hgrown

/-- The values of a composition that was evaluated are free, and so is the region that it names. -/
theorem Composition.free_of_selector? {n : Nat} {ops : List Operation} {c : Composition}
    {s : Selector} (h : c.All (ValueId.Free n ops)) (hs : c.selector? = some s) :
    s.value.Free n ops := by
  unfold selector? at hs
  split at hs
  · rename_i hembeds
    cases hs
    by_cases hblank : s.value = .blank
    · rw [hblank]
      exact ValueId.free_blank
    · exact h _ (mem_followed.mpr ⟨hblank, ⟨[], s⟩, by rw [hembeds]; simp, rfl⟩)
  · cases hs

namespace BuildState

variable {s s' : BuildState} {ops : List Operation}

/-- An operation that grows nothing and stores in free values only keeps the state detached. -/
theorem Detached.append (h : s.Detached ops) (s' : BuildState) (hscopes : s'.scopes = s.scopes)
    {op : Operation} (hrecords : s'.cursor.graph.Records (ops ++ [op])) (hgrown : op.grown = [])
    (hwritten : ∀ v ∈ op.written, v.Free s.scopes.allocated ops) : s'.Detached (ops ++ [op]) where
  records := hrecords
  written op' hop v hv := by
    rw [hscopes]
    rcases List.mem_append.mp hop with hop | hop
    · exact h.written op' hop v hv
    · rw [List.mem_singleton.mp hop] at hv
      exact (hwritten v hv).1
  grown op' hop v hv := by
    rw [hscopes]
    rcases List.mem_append.mp hop with hop | hop
    · obtain ⟨hbelow, hsliced⟩ := h.grown op' hop v hv
      refine ⟨hbelow, hsliced.append fun op'' hop'' hv' => ?_⟩
      rw [List.mem_singleton.mp hop''] at hv'
      exact absurd hv ((hwritten v hv').2 op' hop)
    · rw [List.mem_singleton.mp hop, hgrown] at hv
      cases hv
  names b hb := by
    rw [hscopes] at hb ⊢
    refine (h.names b hb).append (Nat.le_refl _) fun op' hop => ?_
    rw [List.mem_singleton.mp hop, hgrown]
    exact List.not_mem_nil

/-- A larger supply, with names that are free. -/
theorem Detached.supply (h : s.Detached ops) (s' : BuildState) (hcursor : s'.cursor = s.cursor)
    (hle : s.scopes.allocated ≤ s'.scopes.allocated)
    (hnames : ∀ b ∈ s'.scopes.frames.flatten, b.2.Free s'.scopes.allocated ops) :
    s'.Detached ops where
  records := hcursor ▸ h.records
  written op hop v hv := (h.written op hop v hv).mono hle
  grown op hop v hv := ⟨(h.grown op hop v hv).1.mono hle, (h.grown op hop v hv).2⟩
  names := hnames

/-- The next value is free. -/
theorem Detached.free_next (h : s.Detached ops) {n : Nat} (hn : s.scopes.allocated < n) :
    (ValueId.tracked s.scopes.allocated).Free n ops := by
  refine ⟨fun i hi => ?_, fun op hop hgrown => ?_⟩
  · obtain rfl := ValueId.tracked.inj hi
    exact hn
  · exact Nat.lt_irrefl _ ((h.grown op hop _ hgrown).1 _ rfl)

end BuildState

namespace Build

variable {α β : Type} {ns ns₁ ns₂ : Names} {m : Build α} {pre : BuildState → Prop}
  {post : α → BuildState → Prop}

/-- From a settled state in which the names `ns` are seen the step leads to one in which the names
`ns'` are seen. Frames around the innermost one stay as they are. -/
def Settles (ns ns' : Names) (pre : BuildState → Prop) (m : Build α)
    (post : α → BuildState → Prop) : Prop :=
  ∀ s a s', ns.Shows s.scopes → s.scopes.frames ≠ [] → s.Settled → pre s →
    m.run s = .ok (a, s') →
    ns'.Shows s'.scopes ∧ s'.scopes.frames ≠ [] ∧ s'.scopes.frames.tail = s.scopes.frames.tail ∧
      s'.Settled ∧ post a s'

/-- A step of which only the effect matters. -/
abbrev SettlesBy (ns ns' : Names) (m : Build α) : Prop :=
  Settles ns ns' (fun _ => True) m fun _ _ => True

namespace Settles

theorem pure {a : α} {post : α → BuildState → Prop} (h : ∀ s, pre s → post a s) :
    Settles ns ns pre (Pure.pure a : Build α) post := by
  intro s b s' hshows hframes hs hpre hrun
  cases hrun
  exact ⟨hshows, hframes, rfl, hs, h _ hpre⟩

theorem idle {a : α} : Settles ns ns pre (Pure.pure a : Build α) fun _ _ => True :=
  pure fun _ _ => trivial

theorem throw (e : AnalysisError) : Settles ns ns₁ pre (MonadExcept.throw e : Build α) post := by
  intro s a s' _ _ _ _ hrun
  cases hrun

theorem bind {k : α → Build β} {post' : β → BuildState → Prop} (hm : Settles ns ns₁ pre m post)
    (hk : ∀ a, Settles ns₁ ns₂ (post a) (k a) post') : Settles ns ns₂ pre (m >>= k) post' := by
  intro s b s'' hshows hframes hs hpre hrun
  obtain ⟨a, s', hfirst, hrest⟩ := exists_of_run_bind hrun
  obtain ⟨hshows', hframes', htail, hs', ha⟩ := hm s a s' hshows hframes hs hpre hfirst
  obtain ⟨hshows'', hframes'', htail', hs'', hb⟩ := hk a s' b s'' hshows' hframes' hs' ha hrest
  exact ⟨hshows'', hframes'', htail'.trans htail, hs'', hb⟩

/-- What is known before and after may be forgotten. -/
theorem imp {pre' : BuildState → Prop} {post' : α → BuildState → Prop}
    (hm : Settles ns ns₁ pre m post) (hpre : ∀ s, pre' s → pre s)
    (hpost : ∀ a s, post a s → post' a s) : Settles ns ns₁ pre' m post' := by
  intro s a s' hshows hframes hs h hrun
  obtain ⟨hshows', hframes', htail, hs', ha⟩ := hm s a s' hshows hframes hs (hpre s h) hrun
  exact ⟨hshows', hframes', htail, hs', hpost a s' ha⟩

theorem effect (hm : Settles ns ns₁ (fun _ => True) m post) : SettlesBy ns ns₁ m :=
  hm.imp (fun _ => id) fun _ _ _ => trivial

/-- What is known before may not be about the state. -/
theorem of_fact {fact : Prop} (hm : fact → Settles ns ns₁ (fun _ => True) m post) :
    Settles ns ns₁ (fun _ => fact) m post := fun s a s' hshows hframes hs hfact hrun =>
  hm hfact s a s' hshows hframes hs trivial hrun

/-- A step after another one of which only the effect matters. -/
theorem after {k : α → Build β} (hm : SettlesBy ns ns₁ m) (hk : ∀ a, SettlesBy ns₁ ns₂ (k a)) :
    SettlesBy ns ns₂ (m >>= k) := hm.bind hk

theorem discard (hm : Settles ns ns₁ pre m post) :
    Settles ns ns₁ pre (Functor.discard m) fun _ _ => True := by
  have h : Settles ns ns₁ pre (m >>= fun _ => Pure.pure ()) fun _ _ => True :=
    hm.bind fun _ => idle
  exact fun s a s' => h s a s'

theorem ite {c : Prop} [Decidable c] {m' : Build α} (hm : Settles ns ns₁ pre m post)
    (hm' : Settles ns ns₁ pre m' post) : Settles ns ns₁ pre (if c then m else m') post := by
  split
  · exact hm
  · exact hm'

/-- Identifiers that are used, and declarations that are only counted, are not seen. -/
theorem names (hm : Settles ns ns₁ pre m post) (h : ns₂.visible = ns₁.visible) :
    Settles ns ns₂ pre m post := by
  intro s a s' hshows hframes hs hpre hrun
  obtain ⟨hshows', hrest⟩ := hm s a s' hshows hframes hs hpre hrun
  refine ⟨?_, hrest⟩
  unfold Names.Shows at hshows' ⊢
  rwa [h]

/-- The evaluation of expressions where the names are seen. -/
theorem of_since {post : α → BuildState → Prop}
    (hm : ∀ s, (s.scopes.lookup? Registry.appendName).isSome =
        (ns.resolve Registry.appendName).isSome → s.Settled →
      ∀ a s', m.run s = .ok (a, s') → s.Since s' ∧ post a s') :
    Settles ns ns (fun _ => True) m post := by
  intro s a s' hshows hframes hs _ hrun
  have hhidden := hshows.isSome_lookup? Registry.appendName (by decide)
  obtain ⟨hsince, ha⟩ := hm s hhidden hs a s' hrun
  have hsame := hsince.frames
  refine ⟨?_, hsame ▸ hframes, congrArg List.tail hsame, hsince.settled hs, ha⟩
  rwa [Names.Shows, hsame]

/-- A step on the graph alone that records nothing. -/
theorem cursor (hm : ∀ s a s', m.run s = .ok (a, s') → s'.scopes = s.scopes ∧
      ∀ ops, s.cursor.graph.Records ops → s'.cursor.graph.Records ops) : SettlesBy ns ns m := by
  intro s a s' hshows hframes hs _ hrun
  obtain ⟨hscopes, hrecords⟩ := hm s a s' hrun
  have hs' : s'.Detached s.cursor.graph.history :=
    ⟨hrecords _ hs.records, hscopes ▸ hs.written, hscopes ▸ hs.grown, hscopes ▸ hs.names⟩
  rw [hscopes]
  exact ⟨hshows, hframes, rfl, hs'.settled, trivial⟩

end Settles

/-! ## Steps of the cursor -/

theorem settles_current : SettlesBy ns ns current := .cursor fun s a s' hrun => by
  cases hrun
  exact ⟨rfl, fun _ h => h⟩

theorem settles_moveTo (p : PointId) : SettlesBy ns ns (moveTo p) := .cursor fun s a s' hrun => by
  cases hrun
  exact ⟨rfl, fun _ h => h⟩

theorem settles_reserve (span : Span) : SettlesBy ns ns (reserve span) :=
  .cursor fun s a s' hrun => by
    cases hrun
    exact ⟨rfl, fun _ h => h.allocate (some span)⟩

theorem settles_detach : SettlesBy ns ns detach := .cursor fun s a s' hrun => by
  cases hrun
  exact ⟨rfl, fun _ h => h.allocate none⟩

theorem settles_join (p : PointId) : SettlesBy ns ns (join p) := .cursor fun s a s' hrun => by
  obtain ⟨c, hjoin, rfl⟩ := exists_of_run_join hrun
  exact ⟨rfl, fun _ h => Cursor.records_join h hjoin⟩

theorem settles_closeLoop (anchor : PointId) : SettlesBy ns ns (closeLoop anchor) :=
  settles_current.after fun _ => .ite .idle (settles_join anchor)

theorem settles_noop (span : Span) : SettlesBy ns ns (append .noop span) :=
  .cursor fun s a s' hrun => by
    cases hrun
    exact ⟨rfl, fun _ h => Cursor.records_append h .noop (some span)⟩

/-- A recorded operation that grows nothing and stores in free values only. -/
theorem settles_append (op : Operation) (hnoop : op.isNoop = false) (hgrown : op.grown = [])
    (span : Span) :
    Settles ns ns (fun s => ∀ v ∈ op.written, s.Frees v) (append op span) fun _ s =>
      s.Settled := by
  intro s a s' hshows hframes hs hfree hrun
  cases hrun
  have hrecords := Cursor.records_append hs.records op (some span)
  rw [hnoop, if_neg Bool.false_ne_true] at hrecords
  have hs' := (hs.append { s with cursor := s.cursor.append op (some span) } rfl hrecords hgrown
    hfree).settled
  exact ⟨hshows, hframes, rfl, hs', hs'⟩

theorem settles_arm (after : PointId) {setup body : Build Unit} (hsetup : SettlesBy ns ns₁ setup)
    (hbody : SettlesBy ns₁ ns₂ body) : SettlesBy ns ns₂ (arm after setup body) :=
  hsetup.after fun _ => settles_current.after fun fork => hbody.after fun _ =>
    (settles_join after).after fun _ => settles_moveTo fork

/-- The end of a switch, to which control may come past all clauses. -/
theorem settles_leaveSwitch (after fork : PointId) (hasDefault : Bool) :
    SettlesBy ns ns
      (do
        unless hasDefault do
          moveTo fork
          join after
        moveTo after) :=
  .ite (settles_moveTo after) <| (settles_moveTo fork).after fun _ =>
    (settles_join after).after fun _ => settles_moveTo after

/-! ## Names and values -/

theorem settles_inFrame {step : Build Unit} (h : SettlesBy ns ns₁ step) :
    SettlesBy ns (ns₁.leave ns) (inFrame step) := by
  intro s a s'' hshows hframes hs _ hrun
  unfold inFrame at hrun
  obtain ⟨_, s₁, hpush, hrun⟩ := exists_of_run_bind hrun
  obtain ⟨_, s₂, hstep, hpop⟩ := exists_of_run_bind hrun
  cases hpush
  cases hpop
  have hpushed := (hs.supply { s with scopes := s.scopes.push } rfl (Nat.le_refl _)
    hs.names).settled
  obtain ⟨-, -, htail, hs₂, -⟩ := h { s with scopes := s.scopes.push } () s₂ hshows
    (List.cons_ne_nil _ _) hpushed trivial hstep
  -- the step leaves the frames around its own alone, so the names are those of before
  have hback : s₂.scopes.pop.frames = s.scopes.frames := htail
  refine ⟨?_, ?_, congrArg List.tail hback, ?_, trivial⟩
  · show ns.visible.map Prod.fst = s₂.scopes.pop.frames.flatten.map Prod.fst
    rw [hback]
    exact hshows
  · show s₂.scopes.pop.frames ≠ []
    rwa [hback]
  · refine (hs₂.supply { s₂ with scopes := s₂.scopes.pop } rfl (Nat.le_refl _)
      fun b hb => hs₂.names b ?_).settled
    exact (Scopes.flatten_pop_sublist s₂.scopes).subset hb

theorem settles_bring (outer : Names) (name : String) :
    Settles ns (ns.bring (outer.next? name)) (fun _ => True) (declare name) fun v s =>
      s.Frees v := by
  intro s v s' hshows hframes hs _ hrun
  obtain rfl : (s.scopes.declare name).1 = v := congrArg Prod.fst (Except.ok.inj hrun)
  obtain rfl : { s with scopes := (s.scopes.declare name).2 } = s' :=
    congrArg Prod.snd (Except.ok.inj hrun)
  have hshown := hshows.bring outer name
  by_cases hname : name = Scopes.blankName
  · -- the blank name is not bound
    have hsame : s.scopes.declare name = (.blank, s.scopes) := by simp [Scopes.declare, hname]
    rw [hsame] at hshown ⊢
    exact ⟨hshown, hframes, rfl, hs, ValueId.free_blank⟩
  · rw [Scopes.declare_eq _ hname] at hshown ⊢
    generalize hbind : Scopes.bind { s.scopes with allocated := s.scopes.allocated + 1 } name
      (.tracked s.scopes.allocated) = scopes at hshown ⊢
    have hsupply : scopes.allocated = s.scopes.allocated + 1 := by
      rw [← hbind, Scopes.allocated_bind]
    have hflat : scopes.frames.flatten =
        (name, .tracked s.scopes.allocated) :: s.scopes.frames.flatten := by
      rw [← hbind, Scopes.flatten_bind]
    have hnext : (ValueId.tracked s.scopes.allocated).Free scopes.allocated
        s.cursor.graph.history := hs.free_next (by omega)
    have hlevels : scopes.frames ≠ [] ∧ scopes.frames.tail = s.scopes.frames.tail := by
      rw [← hbind]
      unfold Scopes.bind
      cases hcase : s.scopes.frames with
      | nil => exact absurd hcase hframes
      | cons frame outer => simp
    refine ⟨hshown, hlevels.1, hlevels.2, (hs.supply { s with scopes } rfl ?_ ?_).settled, hnext⟩
    · exact Nat.le_of_lt (Nat.lt_of_lt_of_eq (Nat.lt_succ_self _) hsupply.symm)
    · intro b hb
      rcases List.mem_cons.mp (hflat ▸ hb) with rfl | hb
      · exact hnext
      · exact ⟨(hs.names b hb).1.mono (by simp [hsupply]), (hs.names b hb).2⟩

theorem settles_declare (name : String) :
    Settles ns (ns.declare name) (fun _ => True) (declare name) fun v s => s.Frees v :=
  (settles_bring ns name).names rfl

theorem settles_fresh : Settles ns ns (fun _ => True) fresh fun v s => s.Frees v := by
  intro s v s' hshows hframes hs _ hrun
  cases hrun
  have hs' := hs.supply { s with scopes := s.scopes.fresh.2 } rfl (Nat.le_succ _) fun b hb =>
    ⟨(hs.names b hb).1.mono (Nat.le_succ _), (hs.names b hb).2⟩
  exact ⟨hshows, hframes, rfl, hs'.settled, hs.free_next (Nat.lt_succ_self _)⟩

theorem settles_copy (source target : Selector) (span : Span) :
    Settles ns ns (fun s => s.Frees target.value) (copy source target span) fun _ s =>
      s.Frees target.value := by
  unfold copy
  split
  · intro s a s' hshows hframes hs hfree hrun
    cases hrun
    exact ⟨hshows, hframes, rfl, hs, hfree⟩
  · intro s a s' hshows hframes hs hfree hrun
    obtain ⟨hshows', hframes', htail, hs', -⟩ := settles_append (.assign source target) rfl rfl
      span s a s' hshows hframes hs (fun v hv => (List.mem_singleton.mp hv) ▸ hfree) hrun
    refine ⟨hshows', hframes', htail, hs', ?_⟩
    cases hrun
    have hrecords := Cursor.records_append hs.records (.assign source target) (some span)
    show ValueId.Free _ (s.cursor.append (.assign source target) (some span)).graph.history _
    rw [hrecords.history_eq]
    exact hfree.append (Nat.le_refl _) fun op hop => by
      rw [List.mem_singleton.mp hop]
      exact List.not_mem_nil

/-- Storing in a free value. -/
theorem settles_store (target : Selector) (c : Composition) (span : Span) :
    Settles ns ns (fun s => s.Frees target.value) (store target c span) fun _ _ => True := by
  unfold store
  split
  · exact (settles_copy .blank target span).imp (fun _ => id) fun _ _ _ => trivial
  · generalize c.embeds = embeds
    induction embeds with
    | nil => exact .idle
    | cons e embeds ih =>
        exact (settles_copy e.selector (target.extend e.path) span).bind fun _ => ih

/-! ## Expressions -/

variable {ctx : BuildContext}

theorem settles_evaluateOne (hctx : ctx.registry = .builtin) {e : Expr}
    (h : BoundsGrowths false (ns.growths [e])) :
    Settles ns ns (fun _ => True) (evaluateOne ctx.registry e) fun c s => c.All s.Frees := by
  have hbounds := Names.boundsGrowths h
  rw [List.flatMap_singleton] at hbounds
  rw [hctx]
  refine .of_since fun s hhidden hs c s' hrun => ?_
  obtain ⟨hsince, hc⟩ := (settlesLogic _).evaluateOne e (.refl s) hbounds hhidden hs (.refl s) c s'
    hrun
  exact ⟨hsince, hc.imp fun _ => And.left⟩

/-- An expression that is evaluated for its effect. -/
theorem settles_effect (hctx : ctx.registry = .builtin) {e : Expr}
    (h : BoundsGrowths false (ns.growths [e])) :
    SettlesBy ns (ns.use [e]) (discard (evaluate ctx.registry e 0)) := by
  have hbounds := Names.boundsGrowths h
  rw [List.flatMap_singleton] at hbounds
  rw [hctx]
  refine Settles.names (.of_since fun s hhidden hs => ?_) rfl
  have heval := (settlesLogic (ns.resolve Registry.appendName).isSome).discard
    ((settlesLogic _).evaluate e 0 (.refl s))
  exact heval hbounds hhidden hs (.refl s)

theorem settles_evaluateValues (hctx : ctx.registry = .builtin) (span : Span) {values : List Expr}
    (targets : Nat) (h : BoundsGrowths false (ns.growths values)) :
    Settles ns (ns.use values) (fun _ => True) (evaluateValues ctx.registry span values targets)
      fun cs _ => cs.length = targets := by
  have hbounds := Names.boundsGrowths h
  rw [← Expr.growthsOfEach_eq_flatMap] at hbounds
  rw [hctx]
  exact Settles.names (.of_since fun s hhidden hs => (settlesLogic _).evaluateValues span values
    targets (.refl s) hbounds hhidden hs (.refl s)) rfl

/-! ## Parts of statements -/

theorem settles_defineNames (span : Span) : ∀ (names : List String) (cs : List Composition)
    (ns : Names), cs.length = names.length →
      SettlesBy ns (ns.declareAll names) (defineNames span (names.zip cs))
  | [], _, _, _ => .idle
  | name :: names, c :: cs, ns, h => by
      rw [List.zip_cons_cons, defineNames]
      exact (settles_declare name).bind fun v => (settles_store (.whole v) c span).bind fun _ =>
        settles_defineNames span names cs (ns.declare name) (Nat.succ.inj h)

theorem settles_assignTargets (hctx : ctx.registry = .builtin) (span : Span) :
    ∀ (targets : List Expr) (cs : List Composition), BoundsGrowths false (ns.growths targets) →
      SettlesBy ns ns (assignTargets ctx span (targets.zip cs))
  | [], _, _ => .idle
  | _ :: _, [], _ => .idle
  | target :: targets, c :: cs, h => by
      rw [Names.growths_cons] at h
      have hrest := settles_assignTargets hctx span targets cs h.right
      rw [List.zip_cons_cons, assignTargets]
      refine (settles_evaluateOne hctx h.left).bind fun place => ?_
      split
      · rename_i selector hselector
        refine ((settles_store selector c span).imp (fun s hs => ?_) fun _ _ => id).bind
          fun _ => hrest
        exact Composition.free_of_selector? hs hselector
      · exact hrest.imp (fun _ _ => trivial) fun _ _ => id

theorem settles_storeResults (span : Span) :
    ∀ cs : List Composition, SettlesBy ns ns (storeResults span cs)
  | [] => .idle
  | c :: cs => by
      rw [storeResults]
      exact settles_fresh.bind fun v => (settles_store (.whole v) c span).bind fun _ =>
        (settles_storeResults span cs).after fun _ => .idle

theorem settles_returnWith (hctx : ctx.registry = .builtin) (span : Span) {results : List Expr}
    (h : BoundsGrowths false (ns.growths results)) :
    SettlesBy ns (ns.use results) (returnWith ctx results span) := by
  have hvalues : SettlesBy ns (ns.use results) (returnValues ctx results span) := by
    cases results with
    | nil => exact Settles.idle.names rfl
    | cons e es => exact (settles_evaluateValues hctx span ctx.arity h).effect.after fun cs =>
        settles_storeResults span cs
  refine hvalues.after fun values => ?_
  exact ((settles_append (.ret values) rfl rfl span).imp
    (fun _ _ v hv => absurd hv List.not_mem_nil) fun _ _ _ => trivial).after fun _ => settles_detach

theorem settles_rangeBinding (hctx : ctx.registry = .builtin) (define : Bool) {e : Option Expr}
    (h : BoundsGrowths false (ns.rangeGrowths define e)) :
    SettlesBy ns (ns.rangeVariable define e) (rangeBinding ctx define e) := by
  cases e with
  | none => exact .idle
  | some e =>
      cases define with
      | true =>
          simp only [rangeBinding, if_true]
          cases hname : e.name? with
          | some name =>
              have hvar : ns.rangeVariable true (some e) = ns.declare name := by
                simp [Names.rangeVariable, Expr.defined?, hname]
              rw [hvar]
              refine (settles_declare name).bind fun v => ?_
              exact (settles_copy .blank (.whole v) e.span).imp (fun _ => id) fun _ _ _ => trivial
          | none => exact .throw _
      | false =>
          have hvar : ns.rangeVariable false (some e) = ns.use [e] := by
            simp [Names.rangeVariable, Expr.defined?]
          rw [hvar, rangeBinding]
          refine ((settles_evaluateOne hctx h).bind fun place => ?_).names rfl
          split
          · rename_i selector hselector
            refine (settles_copy .blank selector e.span).imp (fun s hs => ?_) fun _ _ _ => trivial
            exact Composition.free_of_selector? hs hselector
          · exact .idle

theorem settles_bindSubject (span : Span) (c : Composition) (outer : Names)
    (binding : Option String) :
    SettlesBy ns (ns.bring (binding.bind outer.next?))
      (bindSubject span (binding.map (·, c))) := by
  cases binding with
  | none => exact .idle
  | some name => exact (settles_bring outer name).bind fun v => settles_store (.whole v) c span

/-! ## Statements -/

/-- The walk over statements keeps states settled, if the growths that were read of them are
bounded. -/
def settlesStatements (hctx : ctx.registry = .builtin) (r : Renaming) :
    StatementLogic ctx ctx.registry r where
  judge k ns ns' m _ := BoundsGrowths false k.growths → SettlesBy ns ns' m
  arms _ k ns ns' m _ := BoundsGrowths false k.growths → SettlesBy ns ns' m
  clauses _ _ _ k ns ns' m _ := BoundsGrowths false k.growths → SettlesBy ns ns' m
  idle _ := .idle
  refuse _ _ _ _ _ _ := .throw _
  seq hm hn h := (hm h.left).after fun _ => hn h.right
  inFrame hm h := settles_inFrame (hm h)
  effect _ h := settles_effect hctx h
  define names _ span h := (settles_evaluateValues hctx span names.length h).bind fun cs =>
    .of_fact fun hcs => settles_defineNames span names cs _ hcs
  assign targets _ span h := ((settles_evaluateValues hctx span targets.length h.left).effect.after
    fun cs => settles_assignTargets hctx span targets cs h.right).names rfl
  ret _ span h := settles_returnWith hctx span h
  rangeBinding define _ h := settles_rangeBinding hctx define h
  subject _ _ hm h := ((settles_evaluateOne hctx h.left).effect.names rfl).after
    fun c => hm c h.right
  bindSubject c span _ _ := settles_bindSubject span c _ _
  arm hsetup hbody hrest h := (settles_arm _ (hsetup h.left.left) (hbody h.left.right)).after
    fun _ => hrest h.right
  lastArm hbody h := settles_arm _ .idle (hbody h)
  noArm _ := settles_join _
  refuseArm _ _ _ _ _ _ := .throw _
  branch span hm h := (settles_reserve span).after fun after => (hm after h).after fun _ =>
    settles_moveTo after
  loop span hhead hround h := (settles_noop span).after fun _ => settles_current.after fun anchor =>
    (hhead h.left).after fun _ => settles_current.after fun exit => (hround h.right).after fun _ =>
    (settles_closeLoop anchor).after fun _ => settles_moveTo exit
  noClause _ := .idle
  -- the expressions of a clause are used in scope but not evaluated
  clause _ hbody hrest h := ((settles_moveTo _).names rfl).after fun _ => (hbody h.left).after
    fun _ => (settles_join _).after fun _ => hrest h.right
  switch span hm h := (settles_reserve span).after fun after => settles_current.after fun fork =>
    (hm after fork h).after fun _ => settles_leaveSwitch after fork _

/-- **The walk over statements keeps states settled**, if their growths are bounded. -/
theorem settles_statements (hctx : ctx.registry = .builtin) (stmts : List Stmt) (ns : Names)
    (h : BoundsGrowths false (Stmt.growthsEach stmts ns)) :
    SettlesBy ns (Stmt.scanEach stmts ns) (statements ctx stmts) :=
  (settlesStatements hctx default).statements stmts ns h

end Build

/-! ## Functions -/

/-- Only bounded slice expressions store something in the values that are grown. -/
def FlowGraph.Detached (g : FlowGraph) : Prop :=
  ∀ op ∈ g.history, ∀ v ∈ op.grown, v.Sliced g.history

namespace FunctionDecl

variable {f : FunctionDecl} {g : FlowGraph}

theorem shows_heading (f : FunctionDecl) : f.heading.Shows f.bodyState.scopes := by
  have hempty : Names.empty.Shows Scopes.empty := rfl
  exact (hempty.declareAll f.params).declareAll f.resultNames

theorem settled_bodyState (f : FunctionDecl) : f.bodyState.Settled := by
  have hrecords : f.bodyState.cursor.graph.Records [] := Cursor.records_start (some f.span)
  have hs : f.bodyState.Detached [] := by
    refine ⟨hrecords, by simp, by simp, fun b hb => ⟨?_, by simp⟩⟩
    obtain ⟨i, hi, hlt⟩ := f.separate_bodyState.below b hb
    intro j hj
    rw [hi] at hj
    cases hj
    exact hlt
  exact hs.settled

/-- **A function that grows bounded slices only has a detached graph.** -/
theorem detached_graph (h : f.graph .builtin = .ok g) (hbounds : f.BoundsGrowths) :
    g.Detached := by
  obtain ⟨s, hrun, rfl⟩ := exists_run_of_graph h
  have hgrowths : SliceLineage.BoundsGrowths false (Stmt.growthsEach f.body.stmts f.heading) := by
    intro _
    have hall := hbounds
    rw [FunctionDecl.BoundsGrowths, growths] at hall
    generalize f.body = body at hall ⊢
    obtain ⟨stmts, span⟩ := body
    rwa [Block.growths] at hall
  have hctx : (f.context .builtin).registry = .builtin := rfl
  obtain ⟨-, -, -, hs, -⟩ := Build.settles_statements hctx f.body.stmts f.heading hgrowths
    f.bodyState () s f.shows_heading (List.cons_ne_nil _ _) f.settled_bodyState trivial hrun
  exact fun op hop v hv => (hs.grown op hop v hv).2

end FunctionDecl

end SliceLineage
