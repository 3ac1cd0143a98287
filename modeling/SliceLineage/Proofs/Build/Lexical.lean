import Mathlib
import SliceLineage.Proofs.Build.Parallel
import SliceLineage.Proofs.Build.StatementLogic

/-!
# Names are resolved lexically

The graph of a function does not change when one of its declarations gets another name, together
with the identifiers that refer to it. A declaration in an inner frame neither captures an
identifier outside of it nor is seen there, and a declared name always hides a modelled function.

* `Build.Suits`: what is asked of a function up to some place.
* `Build.parallelStatements`: the rules by which statements and their renamed copies are walked over
  side by side.
* `FunctionDecl.names_resolved_lexically`: the result for functions.
-/

namespace SliceLineage

namespace Build

variable {r : Renaming} {registry registry' : Registry} {ns ns' : Names}

/-- Up to a place where the names are `ns`, the new name does not occur, and functions of the
identifiers that refer to no declaration are modelled in the same way. -/
structure Suits (r : Renaming) (registry registry' : Registry) (ns : Names) : Prop where
  blank : r.name ≠ Scopes.blankName
  slice : registry'.slice? = registry.slice?
  fresh : r.Fresh ns
  free : ∀ name, (name, none) ∈ ns.used → registry'.lookup? name = registry.lookup? name

namespace Suits

theorem of_grows (h : Suits r registry registry' ns') (hns : ns.Grows ns') :
    Suits r registry registry' ns :=
  { h with
    fresh := h.fresh.of_grows hns
    free := fun name hname => h.free name (hns.used.mem hname) }

theorem of_leave (h : Suits r registry registry' (ns'.leave ns)) :
    Suits r registry registry' ns' :=
  ⟨h.blank, h.slice, h.fresh.of_leave, h.free⟩

theorem ready {es : List Expr} (h : Suits r registry registry' (ns.use es)) :
    Ready r registry registry' ns (es.flatMap Expr.names) := by
  have hmem : ∀ name ∈ es.flatMap Expr.names, (name, ns.resolve name) ∈ (ns.use es).used :=
    fun name hname => List.mem_append_right _ (List.mem_map_of_mem hname)
  exact {
    blank := h.blank
    slice := h.slice
    declared := h.fresh.declared
    name_ne := fun name hname => h.fresh.used _ (hmem name hname)
    free := fun name hname hnone => h.free name (hnone ▸ hmem name hname) }

theorem ready_single {e : Expr} (h : Suits r registry registry' (ns.use [e])) :
    Ready r registry registry' ns e.names := by
  simpa using h.ready

end Suits

/-! ## Parts of statements -/

theorem parallel_defineNames (hblank : r.name ≠ Scopes.blankName) (span : Span) :
    ∀ (names : List String) (cs : List Composition) (ns : Names), cs.length = names.length →
      ParallelBy r ns (ns.declareAll names) (defineNames span (names.zip cs))
        (defineNames span ((r.binders ns names).zip cs))
  | [], _, _, _ => .pure trivial
  | name :: names, c :: cs, ns, h =>
      (parallel_declare hblank name).bind fun _ _ => (parallel_store _ c span).bind fun _ _ =>
        parallel_defineNames hblank span names cs (ns.declare name) (Nat.succ.inj h)

variable (ctx : BuildContext)

theorem parallel_assignTargets (span : Span) :
    ∀ (targets : List Expr) (cs : List Composition),
      Ready r ctx.registry registry' ns (targets.flatMap Expr.names) →
      ParallelBy r ns ns (assignTargets ctx span (targets.zip cs))
        (assignTargets (ctx.over registry') span
          ((targets.map (r.expr ns)).zip cs))
  | [], _, _ => .pure trivial
  | _ :: _, [], _ => .pure trivial
  | target :: targets, c :: cs, h => by
      have hrest := parallel_assignTargets span targets cs h.right
      rw [List.map_cons, List.zip_cons_cons, List.zip_cons_cons, assignTargets, assignTargets]
      refine (parallel_evaluateOne h.left).bind fun place _ => ?_
      split
      · exact (parallel_store _ c span).bind fun _ _ => hrest
      · exact hrest

theorem parallel_storeResults (span : Span) :
    ∀ cs : List Composition, ParallelBy r ns ns (storeResults span cs) (storeResults span cs)
  | [] => .pure trivial
  | c :: cs => parallel_fresh.bind fun _ _ => (parallel_store _ c span).bind fun _ _ =>
      (parallel_storeResults span cs).bind fun _ _ => .pure trivial

theorem parallel_returnWith (span : Span) {results : List Expr}
    (h : Ready r ctx.registry registry' ns (results.flatMap Expr.names)) :
    ParallelBy r ns ns (returnWith ctx results span)
      (returnWith (ctx.over registry') (results.map (r.expr ns)) span) := by
  have hvalues : ParallelBy r ns ns (returnValues ctx results span)
      (returnValues (ctx.over registry') (results.map (r.expr ns)) span) := by
    cases results with
    | nil => exact .pure trivial
    | cons e es => exact (parallel_evaluateValues span ctx.arity h).bind fun cs _ =>
        parallel_storeResults span cs
  exact hvalues.bind fun values _ => (parallel_append _ span).bind fun _ _ => parallel_detach

theorem parallel_rangeBinding (define : Bool) {e : Option Expr}
    (h : Suits r ctx.registry registry' (ns.rangeVariable define e)) :
    ParallelBy r ns (ns.rangeVariable define e) (rangeBinding ctx define e)
      (rangeBinding (ctx.over registry') define (r.rangeVariable ns define e)) := by
  cases e with
  | none => exact .pure trivial
  | some e =>
      have hspan : (r.expr ns e).span = e.span := Expr.span_mapNames _ e
      cases define with
      | true =>
          cases hname : e.name? with
          | some name =>
              have hvar : ns.rangeVariable true (some e) = ns.declare name := by
                simp [Names.rangeVariable, Expr.defined?, hname]
              have hvar' : r.rangeVariable ns true (some e) = some (e.mapNames (r.binder ns)) := by
                simp [Renaming.rangeVariable, Expr.defined?, hname]
              have hname' : (e.mapNames (r.binder ns)).name? = some (r.binder ns name) := by
                rw [Expr.name?_mapNames, hname, Option.map_some]
              rw [hvar, hvar']
              simp only [rangeBinding, if_true, hname, hname', Expr.span_mapNames]
              exact (parallel_declare h.blank name).bind fun _ _ => parallel_copy _ _ _
          | none =>
              have hvar' : r.rangeVariable ns true (some e) = some (r.expr ns e) := by
                simp [Renaming.rangeVariable, Expr.defined?, hname]
              have hname' : (r.expr ns e).name? = none := by
                rw [Renaming.expr, Expr.name?_mapNames, hname, Option.map_none]
              rw [hvar']
              simp only [rangeBinding, if_true, hname, hname', hspan]
              exact .throw _
      | false =>
          have hbinding : ParallelBy r ns ns (rangeBinding ctx false (some e))
              (rangeBinding (ctx.over registry') false (some (r.expr ns e))) := by
            rw [rangeBinding, rangeBinding, hspan]
            refine (parallel_evaluateOne h.ready_single).bind fun place _ => ?_
            split
            · exact parallel_copy _ _ _
            · exact .pure trivial
          exact hbinding.use [e]

theorem parallel_bindSubject (hblank : r.name ≠ Scopes.blankName) (span : Span)
    (c : Composition) (outer : Names) (binding : Option String)
    (hd : ∀ d ∈ binding.bind outer.next?, ns.Declares d) :
    ParallelBy r ns (ns.bring (binding.bind outer.next?)) (bindSubject span (binding.map (·, c)))
      (bindSubject span ((binding.map (r.binder outer)).map (·, c))) := by
  cases binding with
  | none => exact .pure trivial
  | some name =>
      exact (parallel_bring hblank hd).bind fun _ _ => parallel_store _ c span

/-! ## Statements -/

/-- The end of a switch, to which control may come past all clauses. -/
theorem parallel_leaveSwitch (after fork : PointId) (hasDefault : Bool) :
    ParallelBy r ns ns
      (do
        unless hasDefault do
          moveTo fork
          join after
        moveTo after)
      (do
        unless hasDefault do
          moveTo fork
          join after
        moveTo after) :=
  .ite (parallel_moveTo after) <| (parallel_moveTo fork).bind fun _ _ =>
    (parallel_join after).bind fun _ _ => parallel_moveTo after

open Names (Grows)

/-- Statements and their renamed copies are walked over side by side, if the names up to the end
suit the renaming. -/
def parallelStatements (registry' : Registry) (r : Renaming) :
    StatementLogic ctx registry' r where
  judge _ ns ns' m m' :=
    ns.Grows ns' ∧ (Suits r ctx.registry registry' ns' → ParallelBy r ns ns' m m')
  arms _ _ ns ns' m m' :=
    ns.Grows ns' ∧ (Suits r ctx.registry registry' ns' → ParallelBy r ns ns' m m')
  clauses _ _ _ _ ns ns' m m' :=
    ns.Grows ns' ∧ (Suits r ctx.registry registry' ns' → ParallelBy r ns ns' m m')
  idle := ⟨.refl _, fun _ => .pure trivial⟩
  refuse _ _ hns _ _ := ⟨hns, fun _ => .throw _⟩
  seq hm hn := ⟨hm.1.trans hn.1, fun h => (hm.2 (h.of_grows hn.1)).bind fun _ _ => hn.2 h⟩
  inFrame hm := ⟨hm.1.leave, fun h => parallel_inFrame (hm.2 h.of_leave)⟩
  effect e := ⟨.use _ _, fun h => (parallel_effect h.ready_single).use [e]⟩
  define names values span := by
    refine ⟨(Grows.use _ values).trans (.declareAll _ names), fun h => ?_⟩
    have hvalues := h.of_grows (Grows.declareAll _ names)
    exact ((parallel_evaluateValues span names.length hvalues.ready).use values).bind
      fun cs hlength => parallel_defineNames h.blank span names cs _ hlength
  assign targets values span := by
    refine ⟨.use _ _, fun h => ?_⟩
    have hready := h.ready
    rw [List.flatMap_append] at hready
    exact ((parallel_evaluateValues span targets.length hready.right).bind fun cs _ =>
      parallel_assignTargets ctx span targets cs hready.left).use _
  ret results span := ⟨.use _ _, fun h => (parallel_returnWith ctx span h.ready).use results⟩
  rangeBinding define e := ⟨.rangeVariable _ define e, fun h => parallel_rangeBinding ctx define h⟩
  subject e d hm := by
    refine ⟨((Grows.use _ [e]).trans (.record _ d)).trans (hm .blank).1, fun h => ?_⟩
    have hsubject := (h.of_grows (hm .blank).1).of_grows (.record _ d)
    exact (((parallel_evaluateOne hsubject.ready_single).use [e]).record d).bind
      fun c _ => (hm c).2 h
  bindSubject c span hd := ⟨.bring hd, fun h => parallel_bindSubject h.blank span c _ _ hd⟩
  arm hsetup hbody hrest := by
    refine ⟨(hsetup.1.trans hbody.1).trans hrest.1, fun h => ?_⟩
    have hsbody := h.of_grows hrest.1
    exact (parallel_arm _ (hsetup.2 (hsbody.of_grows hbody.1)) (hbody.2 hsbody)).bind
      fun _ _ => hrest.2 h
  lastArm hbody := ⟨hbody.1, fun h => parallel_arm _ (.pure trivial) (hbody.2 h)⟩
  noArm := ⟨.refl _, fun _ => parallel_join _⟩
  refuseArm _ _ hns _ _ := ⟨hns, fun _ => .throw _⟩
  branch span hm := ⟨(hm default).1, fun h => (parallel_reserve span).bind fun after _ =>
    ((hm after).2 h).bind fun _ _ => parallel_moveTo after⟩
  loop span hhead hround := ⟨hhead.1.trans hround.1, fun h =>
    (parallel_append _ span).bind fun _ _ => parallel_current.bind fun anchor _ =>
    (hhead.2 (h.of_grows hround.1)).bind fun _ _ => parallel_current.bind fun exit _ =>
    (hround.2 h).bind fun _ _ => (parallel_closeLoop anchor).bind fun _ _ => parallel_moveTo exit⟩
  noClause := ⟨.refl _, fun _ => .pure trivial⟩
  clause _ hbody hrest := ⟨((Grows.use _ _).trans hbody.1).trans hrest.1, fun h =>
    ((parallel_moveTo _).use _).bind fun _ _ => (hbody.2 (h.of_grows hrest.1)).bind fun _ _ =>
    (parallel_join _).bind fun _ _ => hrest.2 h⟩
  switch span hm := ⟨(hm default default).1, fun h => (parallel_reserve span).bind fun after _ =>
    parallel_current.bind fun fork _ => ((hm after fork).2 h).bind fun _ _ =>
    parallel_leaveSwitch after fork _⟩

/-- **A renamed block is walked over like the old one.** -/
theorem parallel_blockBody (b : Block) (ns : Names)
    (h : Suits r ctx.registry registry' (b.scan ns)) :
    ParallelBy r ns (b.scan ns) (blockBody ctx b)
      (blockBody (ctx.over registry') (b.rename r ns)) :=
  ((parallelStatements ctx registry' r).blockBody b ns).2 h

end Build

namespace FunctionDecl

variable {r : Renaming} {registry registry' : Registry} {f : FunctionDecl}

/-- Parameters and named results get the same values under their new names. -/
theorem alike_scopes (hblank : r.name ≠ Scopes.blankName) (f : FunctionDecl) :
    (f.rename r).scopes.1 = f.scopes.1 ∧
      ∃ frame, Scopes.Alike r f.heading [frame] f.scopes.2 (f.rename r).scopes.2 := by
  have hempty : Scopes.Alike r .empty [[]] .empty .empty :=
    ⟨rfl, rfl, rfl, rfl, Names.sound_empty⟩
  obtain ⟨-, frame, hparams⟩ := hempty.declareAll hblank f.params
  obtain ⟨hvalues, frame', hresults⟩ := hparams.declareAll hblank (f.results.filterMap id)
  rw [← Renaming.filterMap_results] at hvalues hresults
  exact ⟨congrArg (List.filter fun v : ValueId => !v.isBlank) hvalues, frame', hresults⟩

/-- **A renamed copy has the same graph, or fails with the same error.** -/
theorem graph_rename_over
    (h : Build.Suits r registry registry' (f.body.scan f.heading)) :
    (f.rename r).graph registry' = f.graph registry := by
  obtain ⟨hvalues, frame, hscopes⟩ := f.alike_scopes h.blank
  have harity : (f.rename r).arity = f.arity := Renaming.length_results _ _
  have hrun : ∀ (registry : Registry) (f : FunctionDecl), f.graph registry =
      ((Build.blockBody ⟨registry, f.arity, f.scopes.1⟩ f.body).run
        ⟨.start (some f.span), f.scopes.2⟩).map fun x => x.2.cursor.graph := fun _ _ => rfl
  have hstart : Build.Alike r f.heading [frame] ⟨.start (some f.span), f.scopes.2⟩
      ⟨.start (some f.span), (f.rename r).scopes.2⟩ := ⟨rfl, hscopes⟩
  have hbody := Build.parallel_blockBody ⟨registry, f.arity, f.scopes.1⟩ f.body f.heading h frame []
    _ _ hstart
  rw [hrun registry', hrun registry, hvalues, harity]
  rcases hbody with ⟨e, he, he'⟩ | ⟨_, t, t', ht, ht', -, _, hs⟩
  · exact (congrArg (Except.map _) he').trans (congrArg (Except.map _) he).symm
  · refine (congrArg (Except.map _) ht').trans (Eq.trans ?_ (congrArg (Except.map _) ht).symm)
    exact congrArg (fun c : Cursor => Except.ok c.graph) hs.cursor

/-- **Names are resolved lexically.** With another name for one declaration and for exactly the
identifiers that refer to it, a function has the same graph, or fails with the same error, if the
new name does not occur in the function and is not blank. All identifiers refer to the same
declarations as before. Functions are modelled only where their names refer to no declaration, so
the summaries of other names have no influence. -/
theorem names_resolved_lexically (registry : Registry) (f : FunctionDecl) (r : Renaming)
    (hblank : r.name ≠ Scopes.blankName) (hnew : r.name ∉ f.names) :
    (f.rename r).graph registry = f.graph registry ∧
    (f.rename r).declared = f.declared.set r.declaration r.name ∧
    (f.rename r).used = f.used.map (fun u => (r.apply u.2 u.1, u.2)) ∧
    ∀ registry' : Registry, registry'.slice? = registry.slice? →
      (∀ name, (name, none) ∈ f.used → registry'.lookup? name = registry.lookup? name) →
      f.graph registry' = f.graph registry := by
  have hfresh := fresh_of_not_mem_names hnew
  have hsame : (f.rename r).graph registry = f.graph registry :=
    graph_rename_over ⟨hblank, rfl, hfresh, fun _ _ => rfl⟩
  obtain ⟨hdeclared, hused⟩ := declared_used_rename hblank hnew
  refine ⟨hsame, hdeclared, hused, fun registry' hslice hfree => ?_⟩
  -- both graphs are that of the renamed copy
  have hother : (f.rename r).graph registry = f.graph registry' :=
    graph_rename_over ⟨hblank, hslice.symm, hfresh, fun name hname => (hfree name hname).symm⟩
  exact hother.symm.trans hsame

/-- A function that grows a value before and after an if statement and a type switch that declare
the name of the growth, and that calls its parameter. -/
def hiddenAppend : FunctionDecl :=
  let x : Expr := .ident "x" default
  let append : Expr := .ident "append" default
  let grow : Stmt := .define ["y"] [.call append [x] default] default
  ⟨"hidden", ["x"], [], ⟨[
    grow,
    .ifElse (some (.define ["append"] [x] default)) append ⟨[grow], default⟩
      (some (.ifElse (some (.define ["append"] [append] default)) append ⟨[grow], default⟩ none
        default)) default,
    .typeSwitch none (some "append") x [⟨[x], [grow], default⟩, ⟨[], [grow], default⟩] default,
    .define ["y"] [.call x [.ident "y" default] default] default,
    grow], default⟩, default⟩

/-- Three identifiers refer to the first declaration in the if statement, one of them as the
function that is called. Under the new name they do so still, and the growths outside are modelled
as before, the only calls in the graph. A summary for the name of the parameter changes nothing. -/
theorem hiddenAppend_resolved_lexically :
    "grow" ≠ Scopes.blankName ∧ "grow" ∉ hiddenAppend.names ∧
    (hiddenAppend.rename ⟨2, "grow"⟩).graph .builtin = hiddenAppend.graph .builtin ∧
    (hiddenAppend.rename ⟨2, "grow"⟩).declared =
      ["x", "y", "grow", "y", "append", "y", "append", "y", "y", "y", "y"] ∧
    (hiddenAppend.rename ⟨2, "grow"⟩).used.count ("grow", some 2) = 3 ∧
    (hiddenAppend.rename ⟨2, "grow"⟩).used.count ("append", none) = 2 ∧
    (hiddenAppend.graph .builtin).map (fun g => g.edges.countP (·.2.op.kind == "call_effect")) =
      .ok 2 ∧
    hiddenAppend.graph (.enter .builtin (.unaryAlias "x" .next)) = hiddenAppend.graph .builtin := by
  have hnew : "grow" ∉ hiddenAppend.names := by decide
  obtain ⟨hgraph, hdeclared, hused, hregistry⟩ :=
    names_resolved_lexically .builtin hiddenAppend ⟨2, "grow"⟩ (by decide) hnew
  refine ⟨by decide, hnew, hgraph, ?_, ?_, ?_, by cbv, ?_⟩
  · rw [hdeclared]
    cbv
  · rw [hused]
    cbv
  · rw [hused]
    cbv
  · refine hregistry _ (by decide) fun name hname => ?_
    have happend : ∀ u ∈ hiddenAppend.used, u.2 = none → u.1 = "append" := by decide
    obtain rfl : name = "append" := happend _ hname rfl
    decide

end FunctionDecl

end SliceLineage
