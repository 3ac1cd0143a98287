import Mathlib
import SliceLineage.Proofs.Build.EvaluationLogic

/-!
# The calls that evaluation makes

Evaluation walks over an expression and appends one call for each site where a modelled function is
called, the sites of the operands before that of the whole. What is called is a name; any other
callee is not looked at, and the sites inside it are passed over.

* `Expr.calleeSites`: the sites in callees.
* `Build.Makes`: a construction step appends calls at the given sites and does nothing else.
* `Build.makesLogic`: the rules by which evaluation makes the calls of all sites outside of callees.
* `Build.evaluate_calls_sites`: so no call is made twice, and those in callees are never made.
-/

namespace SliceLineage

/-- The list is made of two parts, the first of which has kept its order. -/
structure Split {α : Type} (all first second : List α) : Prop where
  ordered : first.Sublist all
  complete : all.Perm (first ++ second)

namespace Split

variable {α : Type} {all all' first first' second second' : List α}

theorem nil : Split ([] : List α) [] [] := ⟨.refl _, .refl _⟩

theorem left (l : List α) : Split l l [] := ⟨.refl _, by simp⟩

theorem right (l : List α) : Split l [] l := ⟨List.nil_sublist _, .refl _⟩

theorem append (h : Split all first second) (h' : Split all' first' second') :
    Split (all ++ all') (first ++ first') (second ++ second') where
  ordered := h.ordered.append h'.ordered
  complete := by
    refine (h.complete.append h'.complete).trans ?_
    rw [List.append_assoc, List.append_assoc]
    refine List.Perm.append_left _ ?_
    rw [← List.append_assoc, ← List.append_assoc]
    exact List.perm_append_comm.append_right _

/-- The first part is all exactly if the second one is empty. -/
theorem eq_iff (h : Split all first second) : first = all ↔ second = [] := by
  have hlength := h.complete.length_eq
  rw [List.length_append] at hlength
  constructor
  · rintro rfl
    exact List.length_eq_zero_iff.mp (by omega)
  · rintro rfl
    exact h.ordered.eq_of_length (by simpa using hlength.symm)

end Split

/-! ## Sites of expressions -/

namespace Expr

section

variable (func? : String → Option FuncId) (bounded? : Option FuncId)

mutual

/-- The sites in the callees of an expression. -/
def calleeSites : Expr → List CallSite
  | .ident .. | .literal _ | .funcLit _ | .other _ | .bad _ => []
  | .paren operand _ | .select operand _ _ | .unary operand _ | .typeAssert operand _ =>
      calleeSites operand
  | .call callee args _ => sites func? bounded? true callee ++ calleeSitesOfEach args
  | .slice operand low high max _ =>
      calleeSites operand ++ calleeSitesOfAny low ++ calleeSitesOfAny high ++ calleeSitesOfAny max
  | .composite _ elements _ => calleeSitesOfElements elements
  | .binary left right _ | .index left right _ => calleeSites left ++ calleeSites right

def calleeSitesOfEach : List Expr → List CallSite
  | [] => []
  | e :: es => calleeSites e ++ calleeSitesOfEach es

def calleeSitesOfAny : Option Expr → List CallSite
  | none => []
  | some e => calleeSites e

def calleeSitesOfElements : List Element → List CallSite
  | [] => []
  | ⟨_, value⟩ :: es => calleeSites value ++ calleeSitesOfElements es

end

end

/-! ## Sites inside and outside of callees -/

variable (func? : String → Option FuncId) (bounded? : Option FuncId)

mutual

/-- **The sites of an expression are those outside and those inside of callees.** -/
theorem split_sites : ∀ e : Expr, Split (sites func? bounded? true e) (sites func? bounded? false e)
    (calleeSites func? bounded? e)
  | .ident .. | .literal _ | .funcLit _ | .other _ | .bad _ => by
      simp only [sites, calleeSites]
      exact .nil
  | .paren operand _ | .select operand _ _ | .unary operand _ | .typeAssert operand _ => by
      simp only [sites, calleeSites]
      exact split_sites operand
  | .call callee args span => by
      simp only [sites, calleeSites, if_true, Bool.false_eq_true, if_false]
      have h := ((Split.right (sites func? bounded? true callee)).append
        (split_sitesOfEach args)).append (.left (CallSite.of (callee.name?.bind func?) span))
      rwa [List.append_nil] at h
  | .slice operand low high max span => by
      simp only [sites, calleeSites]
      have h := ((((split_sites operand).append (split_sitesOfAny low)).append
        (split_sitesOfAny high)).append (split_sitesOfAny max)).append
        (.left (if max.isSome then CallSite.of bounded? span else []))
      rwa [List.append_nil] at h
  | .composite _ elements _ => by
      simp only [sites, calleeSites]
      exact split_sitesOfElements elements
  | .binary left right _ | .index left right _ => by
      simp only [sites, calleeSites]
      exact (split_sites left).append (split_sites right)

theorem split_sitesOfEach : ∀ es : List Expr, Split (sitesOfEach func? bounded? true es)
    (sitesOfEach func? bounded? false es) (calleeSitesOfEach func? bounded? es)
  | [] => by
      simp only [sitesOfEach, calleeSitesOfEach]
      exact .nil
  | e :: es => by
      simp only [sitesOfEach, calleeSitesOfEach]
      exact (split_sites e).append (split_sitesOfEach es)

theorem split_sitesOfAny : ∀ e : Option Expr, Split (sitesOfAny func? bounded? true e)
    (sitesOfAny func? bounded? false e) (calleeSitesOfAny func? bounded? e)
  | none => by
      simp only [sitesOfAny, calleeSitesOfAny]
      exact .nil
  | some e => by
      simp only [sitesOfAny, calleeSitesOfAny]
      exact split_sites e

theorem split_sitesOfElements : ∀ es : List Element, Split (sitesOfElements func? bounded? true es)
    (sitesOfElements func? bounded? false es) (calleeSitesOfElements func? bounded? es)
  | [] => by
      simp only [sitesOfElements, calleeSitesOfElements]
      exact .nil
  | ⟨_, value⟩ :: es => by
      simp only [sitesOfElements, calleeSitesOfElements]
      exact (split_sites value).append (split_sitesOfElements es)

end

end Expr

/-! ## Calls at sites -/

/-- The operations are appended one after the other. -/
def Cursor.appendAll (c : Cursor) (ops : List (Operation × Span)) : Cursor :=
  ops.foldl (fun c op => c.append op.1 (some op.2)) c

theorem Cursor.appendAll_append (c : Cursor) (ops ops' : List (Operation × Span)) :
    c.appendAll (ops ++ ops') = (c.appendAll ops).appendAll ops' := List.foldl_append

/-- The operation calls the function of the site at its place. -/
def CallSite.Calls (site : CallSite) (op : Operation × Span) : Prop :=
  ∃ inputs outputs, op = (.call site.func inputs outputs, site.span)

namespace Build

variable {registry : Registry} {func? : String → Option FuncId} {sites sites' : List CallSite}
  {α β : Type}

/-- Wherever names mean the given functions, the step appends one call for each site, in order, and
does nothing else to the graph and to the names in scope; its result has the property. -/
def Makes (registry : Registry) (func? : String → Option FuncId) (sites : List CallSite)
    (m : Build α) (post : α → Prop) : Prop :=
  ∀ s a s', s.scopes.func? registry = func? → m.run s = .ok (a, s') →
    s'.scopes.frames = s.scopes.frames ∧
      (∃ ops, List.Forall₂ CallSite.Calls sites ops ∧ s'.cursor = s.cursor.appendAll ops) ∧ post a

/-- What a name means depends on the declarations in scope only. -/
theorem func?_congr {s s' : Scopes} (h : s'.frames = s.frames) :
    s'.func? registry = s.func? registry := by
  funext name
  rw [Scopes.func?, Scopes.func?, Scopes.lookup?, Scopes.lookup?, h]

/-- A step that leaves the state as it is. -/
theorem Makes.reads {m : Build α} {post : α → Prop} (f : BuildState → α)
    (hrun : ∀ s, m.run s = .ok (f s, s))
    (h : ∀ s, s.scopes.func? registry = func? → post (f s)) : Makes registry func? [] m post := by
  intro s a s' hfunc hrun'
  rw [hrun] at hrun'
  cases hrun'
  exact ⟨rfl, ⟨[], .nil, rfl⟩, h s hfunc⟩

theorem Makes.bind {m : Build α} {k : α → Build β} {mid : α → Prop} {post : β → Prop}
    (hm : Makes registry func? sites m mid)
    (hk : ∀ a, mid a → Makes registry func? sites' (k a) post) :
    Makes registry func? (sites ++ sites') (m >>= k) post := by
  intro s b s'' hfunc hrun
  obtain ⟨a, s', hfirst, hrest⟩ := exists_of_run_bind hrun
  obtain ⟨hframes, ⟨ops, hops, hcursor⟩, ha⟩ := hm s a s' hfunc hfirst
  obtain ⟨hframes', ⟨ops', hops', hcursor'⟩, hb⟩ :=
    hk a ha s' b s'' ((func?_congr hframes).trans hfunc) hrest
  refine ⟨hframes'.trans hframes, ⟨ops ++ ops', List.rel_append hops hops', ?_⟩, hb⟩
  rw [hcursor', hcursor, Cursor.appendAll_append]

theorem makes_callIfModelled (func : Option FuncId) (inputs : List Composition) (span : Span)
    (count : Nat) :
    Makes registry func? (CallSite.of func span) (callIfModelled func inputs span count)
      (Gives count fun _ => True) := by
  cases func with
  | none => exact .reads (fun _ => blanks count) (fun _ => rfl) fun _ _ => gives_blanks count
  | some f =>
      intro s cs s' _ hrun
      rw [callIfModelled, run_callModelled] at hrun
      cases hrun
      exact ⟨rfl, ⟨[_], .cons ⟨_, _, rfl⟩ .nil, rfl⟩, by simp, fun _ _ _ _ => trivial⟩

/-- Evaluation makes the calls of the sites that were read. -/
def makesLogic (registry : Registry) (func? : String → Option FuncId) :
    EvaluationLogic registry registry id Unit where
  func? := func?
  means callee func := func = callee.name?.bind func?
  since _ _ := True
  good _ _ _ _ := True
  judge r _ _ m _ post := Makes registry func? r.sites m fun a => post a ()
  since_refl _ := trivial
  good_later h _ := h
  good_earlier h _ := h
  good_plain h := h
  pure h := .reads _ (fun _ => rfl) fun _ _ => h
  throw _ _ _ _ _ _ _ _ hrun := by cases hrun
  bind hm hk := Makes.bind hm fun a ha => hk a () trivial ha
  rebase _ h s a s' hfunc hrun := by
    obtain ⟨hframes, hops, ha⟩ := h s a s' hfunc hrun
    exact ⟨hframes, hops, trivial, ha⟩
  lookup name _ := .reads (·.scopes.lookup name) (fun _ => rfl) fun _ _ _ => trivial
  modelled callee _ := .reads _ (run_modelled? registry callee) fun _ hfunc => by rw [hfunc]
  call span count _ hfunc _ := by
    rw [hfunc]
    exact makes_callIfModelled _ _ span count
  slice span count _ _ := makes_callIfModelled _ _ span count

/-- **The calls of an expression are made once each, innermost and leftmost first, unless they stand
in a callee.** Evaluation appends one call for each site outside of callees and nothing else. Of all
the sites in the expression, these are the ones that are left when those in callees are taken away,
in the same order; so every call is made exactly if no callee contains a site. -/
theorem evaluate_calls_sites {registry : Registry} {e : Expr} {count : Nat} {s s' : BuildState}
    {cs : List Composition} (h : (evaluate registry e count).run s = .ok (cs, s')) :
    (∃ ops, s'.cursor = s.cursor.appendAll ops ∧ List.Forall₂ CallSite.Calls
      (e.sites (s.scopes.func? registry) registry.slice? false) ops) ∧
    s'.scopes.frames = s.scopes.frames ∧
    (e.sites (s.scopes.func? registry) registry.slice? false).Sublist
      (e.sites (s.scopes.func? registry) registry.slice? true) ∧
    (e.sites (s.scopes.func? registry) registry.slice? true).Perm
      (e.sites (s.scopes.func? registry) registry.slice? false ++
        e.calleeSites (s.scopes.func? registry) registry.slice?) ∧
    (e.sites (s.scopes.func? registry) registry.slice? false =
        e.sites (s.scopes.func? registry) registry.slice? true ↔
      e.calleeSites (s.scopes.func? registry) registry.slice? = []) := by
  -- every site outside of callees is made in its turn
  obtain ⟨hframes, ⟨ops, hops, hcursor⟩, -⟩ :=
    (makesLogic registry (s.scopes.func? registry)).evaluate e count (b := ()) (w := ()) trivial
      s cs s' rfl h
  have hsplit := e.split_sites (s.scopes.func? registry) registry.slice?
  exact ⟨⟨ops, hcursor, hops⟩, hframes, hsplit.ordered, hsplit.complete, hsplit.eq_iff⟩

/-- A growth inside the operand of a bounded slice expression, whose bound is a sequence with a
growth. -/
def nestedGrowth : Expr :=
  let v : Expr := .ident "v" default
  .slice (.select (.callNamed "append" [v] ⟨1, 1, 1, 1⟩) "f" default) none
    (some (.composite .sequence [⟨none, .callNamed "append" [v] ⟨2, 1, 2, 1⟩⟩] default))
    (some v) ⟨3, 1, 3, 1⟩

/-- A state with one name in scope. -/
def oneName : BuildState := ⟨.start none, (Scopes.empty.declare "v").2⟩

theorem nestedGrowth_calls_sites : ∃ cs s' ops,
    (evaluate .builtin nestedGrowth 1).run oneName = .ok (cs, s') ∧
      s'.cursor = oneName.cursor.appendAll ops ∧
      List.Forall₂ CallSite.Calls
        [⟨⟨1⟩, ⟨1, 1, 1, 1⟩⟩, ⟨⟨1⟩, ⟨2, 1, 2, 1⟩⟩, ⟨⟨0⟩, ⟨3, 1, 3, 1⟩⟩] ops := by
  cases hrun : (evaluate .builtin nestedGrowth 1).run oneName with
  | error e =>
      have hok : ((evaluate .builtin nestedGrowth 1).run oneName).isOk = true := by cbv
      rw [hrun] at hok
      cases hok
  | ok result =>
      obtain ⟨⟨ops, hcursor, hops⟩, -⟩ := evaluate_calls_sites hrun
      have hsites : nestedGrowth.sites (oneName.scopes.func? .builtin)
          Registry.builtin.slice? false =
          [⟨⟨1⟩, ⟨1, 1, 1, 1⟩⟩, ⟨⟨1⟩, ⟨2, 1, 2, 1⟩⟩, ⟨⟨0⟩, ⟨3, 1, 3, 1⟩⟩] := by cbv
      rw [hsites] at hops
      exact ⟨result.1, result.2, ops, rfl, hcursor, hops⟩

/-- The call of a method on what a growth gives. -/
def methodOfGrowth : Expr :=
  .call (.select (.callNamed "append" [.ident "v" default] ⟨1, 1, 1, 1⟩) "f" default) [] default

/-- The growth stands in a callee, and evaluation does not make it. -/
theorem methodOfGrowth_makes_no_call :
    methodOfGrowth.sites (oneName.scopes.func? .builtin) Registry.builtin.slice? true =
      [⟨⟨1⟩, ⟨1, 1, 1, 1⟩⟩] ∧
    (evaluate .builtin methodOfGrowth 1).run oneName = .ok ([.blank], oneName) := by
  constructor
  · cbv
  · cbv

end Build

end SliceLineage
