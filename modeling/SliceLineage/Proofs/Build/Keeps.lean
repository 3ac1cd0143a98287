import SliceLineage.Build.Stmt
import SliceLineage.Proofs.Build.EvaluationLogic
import SliceLineage.Proofs.Flow.Growth

/-!
# What evaluation keeps

Walking over expressions and storing their values changes the names in scope and appends transfers,
calls and copies, and does nothing else. A property that is kept by these two is kept by all of it.

* `Operation.isTransfer`: the operations that are appended in this way.
* `Build.Keeps`: a construction step keeps a property.
* `Build.Appends`: a property that new names and appended transfers keep.
* `keeps_evaluate`, `keeps_defineNames`, ..: evaluating and storing keep every such property.
-/

namespace SliceLineage

/-- The operation passes values on: it is a call, or a copy of which some side is followed. -/
def Operation.isTransfer : Operation → Bool
  | assign source target => !(source.isBlank && target.isBlank)
  | call .. => true
  | ret .. | noop | move .. => false

theorem Operation.isMove_of_isTransfer {op : Operation} (h : op.isTransfer = true) :
    op.isMove = false := by
  cases op with
  | move source target step => cases h
  | _ => rfl

namespace Build

variable {inv : BuildState → Prop} {α β : Type}

/-- Whenever the step succeeds in a state with the property, the new state has it too. -/
def Keeps {α : Type} (inv : BuildState → Prop) (m : Build α) : Prop :=
  ∀ s a s', inv s → m.run s = .ok (a, s') → inv s'

namespace Keeps

theorem pure (a : α) : Keeps inv (Pure.pure a : Build α) := by
  intro s b s' hs h
  cases h
  exact hs

theorem throw (e : AnalysisError) : Keeps inv (MonadExcept.throw e : Build α) := by
  intro s a s' _ h
  cases h

theorem bind {m : Build α} {k : α → Build β} (hm : Keeps inv m) (hk : ∀ a, Keeps inv (k a)) :
    Keeps inv (m >>= k) := by
  intro s b s'' hs h
  obtain ⟨a, s', hrun, hrest⟩ := exists_of_run_bind h
  exact hk a s' b s'' (hm s a s' hs hrun) hrest

theorem discard {m : Build α} (hm : Keeps inv m) : Keeps inv (Functor.discard m) :=
  hm.bind fun _ => pure ()

theorem modifyGet {f : BuildState → α × BuildState} (hf : ∀ s, inv s → inv (f s).2) :
    Keeps inv (MonadState.modifyGet f : Build α) := by
  intro s a s' hs h
  obtain rfl : (f s).2 = s' := congrArg Prod.snd (Except.ok.inj h)
  exact hf s hs

theorem update {f : BuildState → BuildState} (hf : ∀ s, inv s → inv (f s)) :
    Keeps inv (modify f : Build PUnit) := by
  intro s a s' hs h
  cases h
  exact hf s hs

/-- Reading the state and going on with a function of it. -/
theorem reads (f : BuildState → α) : Keeps inv (do return f (← get) : Build α) := by
  intro s a s' hs h
  cases h
  exact hs

theorem ite {c : Prop} [Decidable c] {m m' : Build α} (hm : Keeps inv m) (hm' : Keeps inv m') :
    Keeps inv (if c then m else m') := by
  split
  · exact hm
  · exact hm'

theorem forM {xs : List β} {f : β → Build PUnit} (hf : ∀ x, Keeps inv (f x)) :
    Keeps inv (xs.forM f) := by
  induction xs with
  | nil => exact pure _
  | cons x xs ih => exact (hf x).bind fun _ => ih

end Keeps

/-- The property is kept when names change and when a transfer is appended. -/
structure Appends (inv : BuildState → Prop) : Prop where
  scopes : ∀ s scopes, inv s → inv { s with scopes := scopes }
  append : ∀ s op span, op.isTransfer = true → inv s →
    inv { s with cursor := s.cursor.append op (some span) }

/-! ## Storing -/

section

variable (ha : Appends inv)
include ha

theorem keeps_scopes (f : BuildState → α × Scopes) :
    Keeps inv (modifyGet fun s => ((f s).1, { s with scopes := (f s).2 }) : Build α) :=
  .modifyGet fun s hs => ha.scopes s _ hs

theorem keeps_declare (name : String) : Keeps inv (declare name) :=
  keeps_scopes ha fun s => s.scopes.declare name

theorem keeps_inFrame {step : Build Unit} (h : Keeps inv step) : Keeps inv (inFrame step) :=
  (Keeps.update fun s hs => ha.scopes s _ hs).bind fun _ =>
    h.bind fun _ => .update fun s hs => ha.scopes s _ hs

theorem keeps_copy (source target : Selector) (span : Span) :
    Keeps inv (copy source target span) := by
  unfold copy
  split
  · exact .pure _
  · rename_i hblank
    refine .update fun s hs => ha.append s _ span ?_ hs
    rw [Operation.isTransfer, Bool.eq_false_iff.mpr hblank]
    rfl

theorem keeps_store (target : Selector) (c : Composition) (span : Span) :
    Keeps inv (store target c span) :=
  .ite (keeps_copy ha _ _ _) (.forM fun _ => keeps_copy ha _ _ _)

end

/-! ## Expressions -/

theorem keeps_single (span : Span) (cs : List Composition) : Keeps inv (single span cs) := by
  unfold single
  split
  · exact .pure _
  · exact .throw _

/-- A call appends a transfer, if any, and gives as many values as are requested. -/
theorem keeps_callIfModelled (ha : Appends inv) (func : Option FuncId)
    (inputs : List Composition) (span : Span) (count : Nat) :
    Keeps inv (callIfModelled func inputs span count) ∧
      ∀ s cs s', (callIfModelled func inputs span count).run s = .ok (cs, s') →
        Gives count (fun _ => True) cs := by
  cases func with
  | none =>
      refine ⟨.pure _, fun s cs s' hrun => ?_⟩
      cases hrun
      exact gives_blanks count
  | some f =>
      refine ⟨fun s cs s' hs hrun => ?_, fun s cs s' hrun => ?_⟩
      · rw [callIfModelled, run_callModelled] at hrun
        cases hrun
        have hscopes :=
          ha.scopes s { s.scopes with allocated := s.scopes.allocated + count } hs
        exact ha.append _ (.call f inputs _) span rfl hscopes
      · rw [callIfModelled, run_callModelled] at hrun
        cases hrun
        exact ⟨by simp, fun _ _ _ _ => trivial⟩

/-- Evaluation under a property that new names and appended transfers keep. -/
def keepsLogic (ha : Appends inv) (registry : Registry) :
    EvaluationLogic registry registry id Unit where
  func? _ := none
  means _ _ := True
  since _ _ := True
  good _ _ _ _ := True
  judge _ _ _ m _ post := Keeps inv m ∧ ∀ s a s', m.run s = .ok (a, s') → post a ()
  since_refl _ := trivial
  good_later h _ := h
  good_earlier h _ := h
  good_plain h := h
  pure h := ⟨.pure _, fun s a s' hrun => by
    cases hrun
    exact h⟩
  throw _ _ _ _ := ⟨.throw _, fun s a s' hrun => by cases hrun⟩
  bind hm hk := by
    refine ⟨fun s b s'' hs hrun => ?_, fun s b s'' hrun => ?_⟩
    · obtain ⟨a, s', hfirst, hrest⟩ := exists_of_run_bind hrun
      exact (hk a () trivial (hm.2 s a s' hfirst)).1 s' b s'' (hm.1 s a s' hs hfirst) hrest
    · obtain ⟨a, s', hfirst, hrest⟩ := exists_of_run_bind hrun
      exact (hk a () trivial (hm.2 s a s' hfirst)).2 s' b s'' hrest
  rebase _ h := ⟨h.1, fun s a s' hrun => ⟨trivial, h.2 s a s' hrun⟩⟩
  lookup _ _ := ⟨.reads _, fun _ _ _ _ _ => trivial⟩
  modelled callee _ := by
    refine ⟨fun s func s' hs hrun => ?_, fun _ _ _ _ => trivial⟩
    rw [run_modelled?] at hrun
    cases hrun
    exact hs
  call span count _ _ _ := keeps_callIfModelled ha _ _ span count
  slice span count _ _ := keeps_callIfModelled ha _ _ span count

section

variable (ha : Appends inv) (registry : Registry)
include ha

theorem keeps_evaluate (e : Expr) (count : Nat) : Keeps inv (evaluate registry e count) :=
  ((keepsLogic ha registry).evaluate e count (b := ()) (w := ()) trivial).1

theorem keeps_evaluateEach (es : List Expr) : Keeps inv (evaluateEach registry es) :=
  ((keepsLogic ha registry).evaluateEach es (b := ()) (w := ()) trivial).1

theorem keeps_evaluateFor (e : Option Expr) : Keeps inv (evaluateFor registry e) :=
  ((keepsLogic ha registry).evaluateFor e (b := ()) (w := ()) trivial).1

theorem keeps_evaluateOne (e : Expr) : Keeps inv (evaluateOne registry e) :=
  ((keepsLogic ha registry).evaluateOne e (b := ()) (w := ()) trivial).1

theorem keeps_evaluateValues (span : Span) (values : List Expr) (targets : Nat) :
    Keeps inv (evaluateValues registry span values targets) :=
  ((keepsLogic ha registry).evaluateValues span values targets (b := ()) (w := ()) trivial).1

end

/-- The value of one expression for one target. -/
theorem run_evaluateValues_single {registry : Registry} {e : Expr} {c : Composition}
    {s s' : BuildState} (span : Span) (h : (evaluate registry e 1).run s = .ok ([c], s')) :
    (evaluateValues registry span [e] 1).run s = .ok ([c], s') := by
  show (evaluate registry e 1 >>= _).run s = _
  rw [StateT.run_bind, h]
  rfl

/-! ## Parts of statements -/

theorem keeps_defineNames (ha : Appends inv) (span : Span) :
    ∀ names : List (String × Composition), Keeps inv (defineNames span names)
  | [] => .pure _
  | (name, c) :: rest =>
      (keeps_declare ha name).bind fun _ => (keeps_store ha _ c span).bind fun _ =>
        keeps_defineNames ha span rest

theorem keeps_assignTargets (ha : Appends inv) (ctx : BuildContext) (span : Span) :
    ∀ targets : List (Expr × Composition), Keeps inv (assignTargets ctx span targets)
  | [] => .pure _
  | (target, c) :: rest => by
      rw [assignTargets]
      refine (keeps_evaluateOne ha ctx.registry target).bind fun place => ?_
      split
      · exact (keeps_store ha _ c span).bind fun _ => keeps_assignTargets ha ctx span rest
      · exact keeps_assignTargets ha ctx span rest

theorem keeps_storeResults (ha : Appends inv) (span : Span) :
    ∀ cs : List Composition, Keeps inv (storeResults span cs)
  | [] => .pure _
  | c :: cs =>
      (keeps_scopes ha fun s => s.scopes.fresh).bind fun _ =>
        (keeps_store ha _ c span).bind fun _ =>
        (keeps_storeResults ha span cs).bind fun _ => .pure _

theorem keeps_returnValues (ha : Appends inv) (ctx : BuildContext) (results : List Expr)
    (span : Span) : Keeps inv (returnValues ctx results span) := by
  unfold returnValues
  split
  · exact .pure _
  · exact (keeps_evaluateValues ha ctx.registry span _ _).bind fun cs =>
      keeps_storeResults ha span cs

theorem keeps_rangeBinding (ha : Appends inv) (ctx : BuildContext) (define : Bool)
    (e : Option Expr) : Keeps inv (rangeBinding ctx define e) := by
  unfold rangeBinding
  split
  · exact .pure _
  · refine .ite ?_ ?_
    · split
      · exact (keeps_declare ha _).bind fun _ => keeps_copy ha _ _ _
      · exact .throw _
    · refine (keeps_evaluateOne ha ctx.registry _).bind fun place => ?_
      split
      · exact keeps_copy ha _ _ _
      · exact .pure _

theorem keeps_bindSubject (ha : Appends inv) (span : Span) :
    ∀ binding : Option (String × Composition), Keeps inv (bindSubject span binding)
  | none => .pure _
  | some (name, subject) =>
      (keeps_declare ha name).bind fun _ => keeps_store ha _ subject span

end Build

end SliceLineage
