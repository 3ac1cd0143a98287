import Mathlib
import SliceLineage.Proofs.Build.Returns
import SliceLineage.Proofs.Build.Stops

/-!
# Temporaries are not conflated

The outputs of calls and the results of returns get values that nothing else has. The walk over a
function advances, so that all these values are different, and they are no values of names, at
whatever place of the function the names are in scope.

* `FunctionDecl.Binds`: a name has a value somewhere in the function.
* `FunctionDecl.resultValues`: the values of the named results, which the first frame shows.
* `FunctionDecl.temporaries_distinct`: what the finished graph records.
-/

namespace SliceLineage

/-! ## The names of a function -/

namespace Scopes

/-- The names that can be declared. -/
def declarable (names : List String) : List String := names.filter (· ≠ blankName)

/-- The values that names get one after the other from the number `first` on. -/
def valuesFrom (first : Nat) (names : List String) : List ValueId :=
  (List.range' first (declarable names).length).map .tracked

theorem declarable_cons_blank (names : List String) :
    declarable (blankName :: names) = declarable names := by simp [declarable]

theorem declarable_cons {name : String} (h : name ≠ blankName) (names : List String) :
    declarable (name :: names) = name :: declarable names := by simp [declarable, h]

/-- Declarations fill the frame from the end, and the values of the names that are not blank are
numbered in order. -/
theorem declareAll_single (names : List String) : ∀ (frame : Frame) (first : Nat),
    ((⟨[frame], first⟩ : Scopes).declareAll names).2 =
      ⟨[((declarable names).zip (valuesFrom first names)).reverse ++ frame],
        first + (declarable names).length⟩ ∧
    ((⟨[frame], first⟩ : Scopes).declareAll names).1.filter (!·.isBlank) =
      valuesFrom first names := by
  induction names with
  | nil => exact fun _ _ => ⟨rfl, rfl⟩
  | cons name names ih =>
      intro frame first
      by_cases hname : name = blankName
      · obtain ⟨hscopes, hvalues⟩ := ih frame first
        subst hname
        rw [valuesFrom, declarable_cons_blank]
        exact ⟨hscopes, hvalues⟩
      · obtain ⟨hscopes, hvalues⟩ := ih ((name, .tracked first) :: frame) (first + 1)
        have hdeclare : (⟨[frame], first⟩ : Scopes).declare name =
            (.tracked first, ⟨[(name, .tracked first) :: frame], first + 1⟩) := declare_eq _ hname
        have hall : valuesFrom first (name :: names) =
            .tracked first :: valuesFrom (first + 1) names := by
          rw [valuesFrom, declarable_cons hname, List.length_cons, List.range'_succ]
          rfl
        simp only [declareAll, hdeclare, hscopes, hall, declarable_cons hname]
        refine ⟨?_, ?_⟩
        · simp [Nat.add_assoc, Nat.add_comm 1]
        · rw [List.filter_cons_of_pos rfl, hvalues]

theorem separate_empty : empty.Separate := ⟨by simp [empty], by simp [empty]⟩

theorem Separate.declareAll (names : List String) : ∀ {s : Scopes}, s.Separate →
    (s.declareAll names).2.Separate := by
  induction names with
  | nil => exact fun h => h
  | cons name names ih => exact fun h => ih h.declare

end Scopes

namespace FunctionDecl

variable {registry : Registry} {f : FunctionDecl} {g : FlowGraph}

/-- The names that results have. -/
def resultNames (f : FunctionDecl) : List String := f.results.filterMap id

/-- The values of the named results, apart from blank ones. -/
def resultValues (f : FunctionDecl) : List ValueId :=
  Scopes.valuesFrom (Scopes.declarable f.params).length f.resultNames

/-- The declarations of the parameters and of the named results, newest first. -/
def signature (f : FunctionDecl) : Frame :=
  ((Scopes.declarable f.resultNames).zip f.resultValues).reverse ++
    ((Scopes.declarable f.params).zip (Scopes.valuesFrom 0 f.params)).reverse

/-- At some position in the body, in some frame, the name is declared with the value. Declarations
that are shadowed there count too. -/
def Binds (registry : Registry) (f : FunctionDecl) (name : String) (v : ValueId) : Prop :=
  ∃ enter l s, Build.Leads (f.context registry) f.body.stmts enter l ∧
    enter.run f.bodyState = .ok ((), s) ∧ ∃ frame ∈ s.scopes.frames, (name, v) ∈ frame

theorem scopes_eq (f : FunctionDecl) : f.scopes = (f.resultValues,
    ⟨[f.signature],
      (Scopes.declarable f.params).length + (Scopes.declarable f.resultNames).length⟩) := by
  obtain ⟨hparams, -⟩ := Scopes.declareAll_single f.params [] 0
  obtain ⟨hresults, hvalues⟩ := Scopes.declareAll_single f.resultNames
    (((Scopes.declarable f.params).zip (Scopes.valuesFrom 0 f.params)).reverse ++ [])
    (0 + (Scopes.declarable f.params).length)
  rw [← hparams] at hresults hvalues
  refine Prod.ext (hvalues.trans ?_) (hresults.trans ?_)
  · rw [Nat.zero_add]
    rfl
  · rw [Nat.zero_add, List.append_nil]
    rfl

theorem separate_bodyState (f : FunctionDecl) : f.bodyState.scopes.Separate :=
  ((Scopes.separate_empty.declareAll f.params).declareAll f.resultNames).push

theorem frames_bodyState (f : FunctionDecl) : f.bodyState.scopes.frames = [[], f.signature] := by
  show [] :: f.scopes.2.frames = _
  rw [scopes_eq]

theorem returns_eq (f : FunctionDecl) : f.returns = Stmt.allReturns f.body.stmts := by
  obtain ⟨name, params, results, ⟨stmts, span⟩, _⟩ := f
  show Stmt.blockReturns ⟨stmts, span⟩ = _
  rw [Stmt.blockReturns]

/-! ## What a function hands out -/

/-- The walk over the body of a function advances by the returns of the function. -/
theorem exists_advance (h : f.graph registry = .ok g) :
    ∃ s numbers, s.cursor.graph = g ∧
      (Build.statements (f.context registry) f.body.stmts).run f.bodyState = .ok ((), s) ∧
      Build.Advance (f.context registry) f.returns f.bodyState s g.history numbers := by
  obtain ⟨s, hrun, rfl⟩ := f.exists_run_of_graph h
  obtain ⟨-, ⟨ops, numbers, hadvance⟩, -⟩ := Build.logs_statements f.body.stmts _ f.bodyState () s
    rfl f.separate_bodyState hrun
  have hhistory : s.cursor.graph.history = ops :=
    (hadvance.records [] (Cursor.records_start (some f.span))).history_eq
  rw [hhistory, returns_eq]
  exact ⟨s, numbers, rfl, hrun, hadvance⟩

/-- **Names do not have the values of temporaries.** -/
theorem not_mem_temporaries_of_binds (h : f.graph registry = .ok g) {name : String} {v : ValueId}
    (hbinds : f.Binds registry name v) : v ∉ temporaries f.returns g.history := by
  obtain ⟨enter, l, s₁, hleads, henter, frame, hframe, hmem⟩ := hbinds
  obtain ⟨s, numbers, rfl, hrun, -⟩ := exists_advance h
  obtain ⟨s₁', s₂, before, after, henter', hl, hreturns, ⟨ops, numbers, hbefore⟩, hafter, hs₁, -⟩ :=
    hleads.stops f.bodyState s f.separate_bodyState hrun
  obtain rfl : s₁ = s₁' := congrArg Prod.snd (Except.ok.inj (henter.symm.trans henter'))
  obtain ⟨-, hlist, -⟩ := Build.logs_statements l _ s₁ () s₂ rfl hs₁ hl
  obtain ⟨ops', numbers', hrest⟩ := hlist.trans hafter
  have hwhole := hbefore.trans hrest
  have hhistory : s.cursor.graph.history = ops ++ ops' :=
    (hwhole.records [] (Cursor.records_start (some f.span))).history_eq
  rw [returns_eq, hreturns, hhistory, hwhole.numbered]
  intro htemp
  obtain ⟨i, hi, rfl⟩ := List.mem_map.mp htemp
  exact hbefore.not_mem_numbers hrest f.separate_bodyState
    (List.mem_flatten.mpr ⟨frame, hframe, hmem⟩) hi

/-- **Temporaries are not conflated.** The outputs of all calls and the values of all returns that
list results are different, and neither blank nor bound to a name anywhere in the function. No call
reads its own outputs. A return that lists results has as many values as the function has results;
one that lists none has the values of the named results, as the signature declares them, whatever
is declared later. -/
theorem temporaries_distinct (h : f.graph registry = .ok g) :
    g.history.Perm (g.effects.map (·.2.op)) ∧
    (temporaries f.returns g.history).Nodup ∧
    (∀ v ∈ temporaries f.returns g.history, v ≠ .blank ∧ ∀ name, ¬ f.Binds registry name v) ∧
    (∀ op ∈ g.history, op.SparesOutputs) ∧
    List.Forall₂
      (fun results values => if results = [] then values = f.resultValues else
        values.length = f.arity)
      f.returns (g.history.filterMap Operation.returned?) ∧
    f.bodyState.scopes.frames = [[], f.signature] := by
  obtain ⟨s, numbers, rfl, -, hadvance⟩ := exists_advance h
  have hcontext : (f.context registry).namedResults = f.resultValues :=
    congrArg Prod.fst f.scopes_eq
  refine ⟨s.cursor.graph.perm_history, ?_, fun v hv => ⟨?_, fun name hbinds => ?_⟩,
    hadvance.spares, ?_, f.frames_bodyState⟩
  · rw [hadvance.numbered]
    refine List.Nodup.map (fun i j hij => ValueId.tracked.inj hij) ?_
    exact hadvance.ascending.imp Nat.ne_of_lt
  · rw [hadvance.numbered] at hv
    obtain ⟨i, -, rfl⟩ := List.mem_map.mp hv
    exact ValueId.noConfusion
  · exact not_mem_temporaries_of_binds h hbinds hv
  · refine hadvance.returned.imp fun results values hreturns => ?_
    rw [← hcontext]
    exact hreturns

/-- A named result that is shadowed where the function returns without results, after nested
calls. -/
def shadowedResult : FunctionDecl :=
  let a : Expr := .ident "a" default
  let b : Expr := .ident "b" default
  let grown (e : Expr) : Expr := .callNamed "append" [e] default
  ⟨"grow", ["a"], [some "b", some "_"], ⟨[
    .assign [b] [grown (grown a)] default,
    .ifElse none a ⟨[.define ["b"] [a] default, .ret [] default], default⟩ none default,
    .ret [grown b, a] default], default⟩, default⟩

/-- Where the function returns without results, the new value of the name is in scope, and the old
one is returned. -/
theorem shadowedResult_temporaries :
    shadowedResult.resultValues = [.tracked 1] ∧
    shadowedResult.Binds .builtin "b" (.tracked 4) ∧
    ∃ g, shadowedResult.graph .builtin = .ok g ∧
      temporaries shadowedResult.returns g.history = [2, 3, 5, 6, 7].map .tracked ∧
      (∀ v ∈ [2, 3, 5, 6, 7].map ValueId.tracked, ∀ name, ¬ shadowedResult.Binds .builtin name v) ∧
      g.history.filterMap Operation.returned? = [[.tracked 1], [.tracked 6, .tracked 7]] ∧
      ∀ op ∈ g.history, op.SparesOutputs := by
  have hrecorded : (do
      let g ← shadowedResult.graph .builtin
      return (temporaries shadowedResult.returns g.history,
        g.history.filterMap Operation.returned?)) =
      .ok ([2, 3, 5, 6, 7].map .tracked, [[.tracked 1], [.tracked 6, .tracked 7]]) := by
    cbv
  refine ⟨by decide, ?_, ?_⟩
  · obtain ⟨enter, l, hleads, hframes⟩ : ∃ enter l,
        Build.Leads (shadowedResult.context .builtin) shadowedResult.body.stmts enter l ∧
        (enter.run shadowedResult.bodyState).map (·.2.scopes.frames) =
          .ok [[("b", .tracked 4)], [], [], [("b", .tracked 1), ("a", .tracked 0)]] := by
      refine ⟨_, _, .next _ (.inside _ (.arms .thenBlock) (.next _ (.here _))), ?_⟩
      cbv
    cases henter : enter.run shadowedResult.bodyState with
    | error e =>
        rw [henter] at hframes
        cases hframes
    | ok result =>
        rw [henter] at hframes
        have hframes : result.2.scopes.frames = _ := Except.ok.inj hframes
        exact ⟨enter, l, result.2, hleads, henter, _, by rw [hframes]; exact .head _, .head _⟩
  · cases hg : shadowedResult.graph .builtin with
    | error e =>
        rw [hg] at hrecorded
        cases hrecorded
    | ok g =>
        rw [hg] at hrecorded
        obtain ⟨htemporaries, hreturned⟩ := Prod.mk.inj (Except.ok.inj hrecorded)
        obtain ⟨-, -, hunbound, hspares, -⟩ := temporaries_distinct hg
        refine ⟨g, rfl, htemporaries, fun v hv => ?_, hreturned, hspares⟩
        exact (hunbound v (htemporaries ▸ hv)).2

end FunctionDecl

end SliceLineage
