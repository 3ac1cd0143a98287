import Mathlib
import SliceLineage.Proofs.Check.Growths
import SliceLineage.Proofs.Check.Limits
import SliceLineage.Proofs.Lowering.Twins

/-!
# Findings and code after a return

Code after a return cannot be reached, and no trace leads there. But the leaf rules of a function
are made from all its assignments, so such code may split the leaves of live values further. If it
splits the live assignments evenly, the findings stay what they are. If it does not, some may be
lost and others appear.

* `firsts_append`: leaving out repetitions, block by block.
* `Ledger.exists_conflicts_of_records`: the conflicts of a block, by the history before it.
* `Twins.exists_conflicts`, `Twins.points_eq`: twins meet conflicts about the same points.
* `findings_eq_of_evenlySplitBy_dead_code`: when code after a return makes no difference.
* `dead_code_can_change_findings`: functions for which it does.
-/

namespace SliceLineage

/-! ## Repetitions, block by block -/

section

variable {α κ : Type} [DecidableEq κ]

theorem firsts_append (key : α → κ) (xs ys : List α) : firsts key (xs ++ ys) =
    firsts key xs ++ (firsts key ys).filter (key · ∉ (firsts key xs).map key) := by
  induction xs with
  | nil => simp [firsts]
  | cons a xs ih =>
      rw [List.cons_append, firsts, firsts, ih, List.filter_append, List.filter_filter,
        List.cons_append]
      congr 2
      refine List.filter_congr fun b _ => ?_
      by_cases hb : key b = key a
      · simp [hb]
      · simp only [hb, decide_not, List.mem_map, List.mem_filter, List.mem_cons, List.map_cons]
        grind

/-- The keys that are kept are the first of each key. -/
theorem map_firsts (key : α → κ) (xs : List α) :
    (firsts key xs).map key = firsts id (xs.map key) := by
  induction xs with
  | nil => rfl
  | cons a xs ih =>
      rw [firsts, List.map_cons, List.map_cons, firsts, ← ih, List.filter_map]
      rfl

theorem firsts_append_congr {xs xs' ys ys' : List κ} (hx : firsts id xs = firsts id xs')
    (hy : firsts id ys = firsts id ys') : firsts id (xs ++ ys) = firsts id (xs' ++ ys') := by
  rw [firsts_append, firsts_append, hx, hy]

theorem firsts_flatMap_congr {β γ : Type} {R : β → γ → Prop} {bs : List β} {cs : List γ}
    (h : List.Forall₂ R bs cs) {f : β → List κ} {f' : γ → List κ}
    (hf : ∀ b c, R b c → firsts id (f b) = firsts id (f' c)) :
    firsts id (bs.flatMap f) = firsts id (cs.flatMap f') := by
  induction h with
  | nil => rfl
  | cons hbc _ ih =>
      rw [List.flatMap_cons, List.flatMap_cons]
      exact firsts_append_congr (hf _ _ hbc) ih

/-- Of equal keys one is kept. -/
theorem firsts_eq_singleton {k : κ} {xs : List κ} (h : ∀ x ∈ xs, x = k) (hne : xs ≠ []) :
    firsts id xs = [k] := by
  cases xs with
  | nil => exact absurd rfl hne
  | cons x rest =>
      obtain rfl := h x List.mem_cons_self
      rw [firsts, List.filter_eq_nil_iff.mpr fun y hy => ?_]
      have hyx := h y (List.mem_cons_of_mem _ (firsts_subset id rest hy))
      simp [hyx]

/-- Blocks of one and the same key differ only in whether they are empty. -/
theorem firsts_eq_of_block {k : κ} {xs ys : List κ} (hx : ∀ x ∈ xs, x = k) (hy : ∀ y ∈ ys, y = k)
    (hempty : xs ≠ [] ↔ ys ≠ []) : firsts id xs = firsts id ys := by
  by_cases hne : xs = []
  · have hne' : ys = [] := Classical.byContradiction fun h => hempty.mpr h hne
    rw [hne, hne']
  · rw [firsts_eq_singleton hx hne, firsts_eq_singleton hy (hempty.mp hne)]

end

/-! ## The conflicts of a block -/

namespace Ledger

/-- What is met after a beginning does not depend on how the beginning was gone through. -/
theorem conflicts_append_of_replay {before after : Trace} {m : Ledger} :
    ∀ {l : Ledger} {found later : List Conflict}, l.replay before = .ok m →
      l.conflicts before = .ok found → m.conflicts after = .ok later →
      l.conflicts (before ++ after) = .ok (found ++ later) := by
  induction before with
  | nil =>
      intro l found later hreplay hfound hlater
      cases hreplay
      cases hfound
      exact hlater
  | cons t before ih =>
      intro l found later hreplay hfound hlater
      obtain ⟨first, l', rest, hstep, hrest, rfl⟩ := exists_of_conflicts_cons hfound
      rw [replay_cons, hstep] at hreplay
      rw [List.cons_append, conflicts_cons hstep (ih hreplay hrest hlater), List.append_assoc]

/-- A block has conflicts exactly if something is reported. -/
theorem exists_conflicts_of_records {trace : Trace} :
    ∀ {l : Ledger} {h : History}, l.Records h → (∀ t ∈ trace, t.op.isPrimitive = true) →
      ∃ found, l.conflicts trace = .ok found ∧
        (found ≠ [] ↔ h.Clashes (fun _ => True) trace) := by
  induction trace with
  | nil => exact fun _ _ => ⟨[], rfl, fun hne => hne rfl, False.elim⟩
  | cons t rest ih =>
      intro l h hr hprimitive
      obtain ⟨conflict, l', hstep, hr', hiff⟩ := step_records hr (hprimitive t List.mem_cons_self)
      obtain ⟨later, hlater, hclash⟩ :=
        ih hr' fun u hu => hprimitive u (List.mem_cons_of_mem _ hu)
      refine ⟨_, conflicts_cons hstep hlater, ?_⟩
      have hfirst : conflict.toList ≠ [] ↔ t.op.Writes (fun _ => True) ∧ ∃ c, h.Repeats t c := by
        constructor
        · intro hne
          obtain ⟨c, rfl⟩ : ∃ c, conflict = some c := by
            cases conflict with
            | none => exact absurd rfl hne
            | some c => exact ⟨c, rfl⟩
          have hrepeats := (hiff c).mp rfl
          obtain ⟨source, target, hop, -⟩ := id hrepeats
          exact ⟨⟨source, target, .next, hop, trivial⟩, c, hrepeats⟩
        · rintro ⟨-, c, hc⟩
          rw [(hiff c).mpr hc]
          exact List.cons_ne_nil _ _
      rw [Ne, List.append_eq_nil_iff, not_and_or, ← Ne, ← Ne, hfirst, hclash]
      rfl

end Ledger

/-! ## Traces of twins -/

namespace FlowGraph

section

variable {registry : Registry} {depth : Nat} {rich : FlowGraph} {s : Lowering.Progress}
  {drawn : List Strand} {st : Strand}

theorem Spun.isPrimitive_of_mem_trace (h : Spun registry depth rich s drawn) (hst : st ∈ drawn)
    {t : Transition} (ht : t ∈ st.trace) : t.op.isPrimitive = true := by
  obtain ⟨-, outcome, -, -, -, hops⟩ := h.weaves.only st hst
  have hop : t.op ∈ st.ops := List.mem_map_of_mem ht
  rw [hops] at hop
  rcases mem_padded hop with hop | hop
  · exact LeafRules.isPrimitive_of_mem_chain hop
  · rw [hop]
    rfl

/-- **All conflicts of a strand are about the point that its edge leads to**, and the ledger goes on
recording the history. -/
theorem Spun.exists_conflicts (h : Spun registry depth rich s drawn) (rules : LeafRules)
    (hst : st ∈ drawn) {l : Ledger} {past : History} (hr : l.Records past) :
    ∃ found m, l.conflicts st.trace = .ok found ∧ l.replay st.trace = .ok m ∧
      m.Records (st.trace.foldl History.extend past) ∧
      (found ≠ [] ↔ past.Clashes (fun _ => True) st.trace) ∧
      ∀ p ∈ found.map (s.lowering rules).place, p = st.edge.target := by
  have hprimitive : ∀ t ∈ st.trace, t.op.isPrimitive = true :=
    fun t ht => h.isPrimitive_of_mem_trace hst ht
  obtain ⟨found, hfound, hclash⟩ := Ledger.exists_conflicts_of_records hr hprimitive
  obtain ⟨m, hm, hrecords⟩ := Ledger.replay_records st.trace hr hprimitive
  refine ⟨found, m, hfound, hm, hrecords, hclash, fun p hp => ?_⟩
  obtain ⟨c, hc, rfl⟩ := List.mem_map.mp hp
  obtain ⟨t, ht, hpoint⟩ := Ledger.exists_target_of_mem_conflicts hfound hc
  show (s.origins[c.point.index]?).getD c.point = st.edge.target
  rw [hpoint, (h.woven.holds st hst).origins t ht]
  rfl

end

variable {registry : Registry} {depth : Nat} {g₀ g : FlowGraph} {s₀ s : Lowering.Progress}
  {drawn₀ drawn : List Strand}

theorem Twins.cellPairing (h : Twins registry depth g₀ g s₀ s drawn₀ drawn) (suffix : FieldPath) :
    CellPairing (s₀.cells.Part s.cells suffix) :=
  CellTable.Leafy.cellPairing ⟨h.spun₀.lowered.sound.cells, h.spun₀.lowered.sound.leaves⟩
    ⟨h.spun.lowered.sound.cells, h.spun.lowered.sound.leaves⟩ suffix

/-- **Traces that go along strands that correspond meet conflicts about the same points**, after
histories that are in step. -/
theorem Twins.exists_conflicts (h : Twins registry depth g₀ g s₀ s drawn₀ drawn)
    (rules₀ rules : LeafRules) {trace₀ trace : Trace}
    (hbeside : Strand.Beside (Corresponds s₀ s drawn₀ drawn) trace₀ trace) :
    ∀ {l₀ l : Ledger} {past₀ past : History}, l₀.Records past₀ → l.Records past →
      past₀.InStep (s₀.cells.Part s.cells) past →
      ∃ found₀ found, l₀.conflicts trace₀ = .ok found₀ ∧ l.conflicts trace = .ok found ∧
        firsts id (found₀.map (s₀.lowering rules₀).place) =
          firsts id (found.map (s.lowering rules).place) := by
  induction hbeside with
  | nil => exact fun _ _ _ => ⟨[], [], rfl, rfl, rfl⟩
  | @cons st₀ st later₀ later hst rest ih =>
      intro l₀ l past₀ past hr₀ hr hstep
      obtain ⟨hst₀, hst, hkey, hops⟩ := hst
      obtain ⟨found₀, m₀, hfound₀, hm₀, hr₀', hclash₀, hplace₀⟩ :=
        h.spun₀.exists_conflicts rules₀ hst₀ hr₀
      obtain ⟨found, m, hfound, hm, hr', hclash, hplace⟩ := h.spun.exists_conflicts rules hst hr
      obtain ⟨hstep', hiff⟩ := AlongAll.inStep h.cellPairing hops hstep
      obtain ⟨after₀, after, hafter₀, hafter, hlater⟩ := ih hr₀' hr' hstep'
      refine ⟨found₀ ++ after₀, found ++ after,
        Ledger.conflicts_append_of_replay hm₀ hfound₀ hafter₀,
        Ledger.conflicts_append_of_replay hm hfound hafter, ?_⟩
      rw [List.map_append, List.map_append]
      refine firsts_append_congr ?_ hlater
      have hedge : st₀.edge = st.edge := (Prod.mk.inj hkey).2
      rw [hedge] at hplace₀
      refine firsts_eq_of_block hplace₀ hplace ?_
      rw [Ne, Ne, List.map_eq_nil_iff, List.map_eq_nil_iff]
      exact hclash₀.trans (hiff.trans hclash.symm)

/-- **The findings of twins are about the same points, in the same order.** -/
theorem Twins.points_eq (h : Twins registry depth g₀ g s₀ s drawn₀ drawn)
    (rules₀ rules : LeafRules) (settings : TraceSettings) :
    ((s.lowering rules).report g settings).warnings.map Warning.point =
      ((s₀.lowering rules₀).report g₀ settings).warnings.map Warning.point := by
  have hpoints : ∀ (l : Lowering) (rich : FlowGraph),
      (l.report rich settings).warnings.map Warning.point =
        firsts id ((l.visited settings).flatMap fun trace => (conflictsOf trace).map l.place) := by
    intro l rich
    rw [← List.map_flatMap, ← map_firsts, Lowering.report, List.map_map]
    rfl
  rw [hpoints, hpoints]
  refine (firsts_flatMap_congr (h.traces _ _) fun trace₀ trace hbeside => ?_).symm
  obtain ⟨found₀, found, hfound₀, hfound, hfirsts⟩ := h.exists_conflicts rules₀ rules hbeside
    Ledger.records_empty Ledger.records_empty fun _ => ⟨_, History.mirrors_nil _⟩
  rw [conflictsOf, conflictsOf, traceConflicts, traceConflicts, hfound₀, hfound]
  exact hfirsts

end FlowGraph

/-! ## Functions -/

/-- Where a report says that something was grown twice. -/
def Warning.location (w : Warning) : PointId × Option Span := (w.point, w.span)

namespace FunctionDecl

/-- The places that the analysis of a function reports. -/
def findings (registry : Registry) (settings : Settings) (f : FunctionDecl) :
    Except AnalysisError (List (PointId × Option Span)) :=
  (f.analyze registry settings).map (·.warnings.map Warning.location)

variable {registry : Registry} {f : FunctionDecl} {g : FlowGraph}

/-- A function that has a graph can be analysed. -/
theorem exists_findings (settings : Settings) (h : f.graph registry = .ok g) :
    ∃ l, g.lower registry settings.paths.maxPathDepth.toNat = .ok l ∧
      f.findings registry settings =
        .ok ((l.report g settings.trace).warnings.map Warning.location) := by
  obtain ⟨l, hl, -⟩ := FlowGraph.exists_lower registry settings.paths.maxPathDepth.toNat
    (f.allOps_graph h)
  refine ⟨l, hl, ?_⟩
  simp [findings, analyze, h, FlowGraph.check_eq_report hl, bind, Except.bind, pure, Except.pure,
    Except.map]

end FunctionDecl

namespace FlowGraph

variable {registry : Registry} {settings : Settings} {g₀ g : FlowGraph} {l₀ l : Lowering}

/-- What is reported lies in the part that can be reached. -/
theorem SameLive.location_mem (h : g₀.SameLive g)
    (hl : g.lower registry settings.paths.maxPathDepth.toNat = .ok l) {w : Warning}
    (hw : w ∈ (l.report g settings.trace).warnings) :
    g₀.Reaches w.point ∧ w.span = g₀.reference? w.point := by
  obtain ⟨p, hp, t, ht, hpoint, hspan, -⟩ :=
    exists_growth_of_mem_warnings (check_eq_report hl) hw
  have hreaches : g₀.Reaches w.point := by
    rw [hpoint]
    exact h.reaches_iff.mp (hp.step ht)
  exact ⟨hreaches, hspan.trans (h.spans _ hreaches)⟩

/-- **Graphs with the same live part have the same findings**, if the one splits the live
assignments of the other evenly. -/
theorem SameLive.locations_eq (h : g₀.SameLive g) (hg₀ : g₀.Wired) (hg : g.Wired)
    (hl₀ : g₀.lower registry settings.paths.maxPathDepth.toNat = .ok l₀)
    (hl : g.lower registry settings.paths.maxPathDepth.toNat = .ok l)
    (heven : EvenlySplitBy registry settings.paths.maxPathDepth.toNat g₀ g) :
    (l.report g settings.trace).warnings.map Warning.location =
      (l₀.report g₀ settings.trace).warnings.map Warning.location := by
  have hlocation : ∀ ws : List Warning, (∀ w ∈ ws, w.span = g₀.reference? w.point) →
      ws.map Warning.location = (ws.map Warning.point).map fun p => (p, g₀.reference? p) := by
    intro ws hspan
    rw [List.map_map]
    exact List.map_congr_left fun w hw => congrArg (Prod.mk w.point) (hspan w hw)
  rw [hlocation _ fun w hw => (h.location_mem hl hw).2,
    hlocation _ fun w hw => ((SameLive.refl g₀).location_mem hl₀ hw).2]
  obtain ⟨s₀, s, drawn₀, drawn, htwins, rfl, rfl⟩ := h.exists_twins hg₀ hg hl₀ hl heven
  rw [htwins.points_eq]

end FlowGraph

/-- **Code after a return adds no places to the findings, and takes none away, if it splits the live
assignments evenly.** A function that builds can also be built and analysed without the statements
after a return. What is reported lies in the graph that is left then; and if the leaves of all
assignments that can be reached fall apart evenly, the same places are reported, in the same
order. -/
theorem findings_eq_of_evenlySplitBy_dead_code {registry : Registry} (settings : Settings)
    {f : FunctionDecl} {pre post : List Stmt} {results : List Expr} {span : Span} {g : FlowGraph}
    (hbody : f.body.stmts = pre ++ .ret results span :: post) (hg : f.graph registry = .ok g) :
    ∃ g₀ found₀ found, (f.withBody (pre ++ [.ret results span])).graph registry = .ok g₀ ∧
      (f.withBody (pre ++ [.ret results span])).findings registry settings = .ok found₀ ∧
      f.findings registry settings = .ok found ∧
      (∀ x ∈ found, g₀.Reaches x.1 ∧ x.2 = g₀.reference? x.1) ∧
      (FlowGraph.EvenlySplitBy registry settings.paths.maxPathDepth.toNat g₀ g →
        found = found₀) := by
  have hwith : (f.withBody (pre ++ .ret results span :: post)).graph registry = .ok g := by
    rw [← hbody, FunctionDecl.withBody_stmts]
    exact hg
  obtain ⟨g₀, hg₀, hlive⟩ := FunctionDecl.exists_graph_of_returns hwith
  obtain ⟨l₀, hl₀, hfound₀⟩ := FunctionDecl.exists_findings settings hg₀
  obtain ⟨l, hl, hfound⟩ := FunctionDecl.exists_findings settings hg
  refine ⟨g₀, _, _, hg₀, hfound₀, hfound, fun x hx => ?_, fun heven => ?_⟩
  · obtain ⟨w, hw, rfl⟩ := List.mem_map.mp hx
    exact hlive.location_mem hl hw
  · exact hlive.locations_eq (FunctionDecl.wired_graph hg₀) (FunctionDecl.wired_graph hg) hl₀ hl
      heven

/-- A function of a parameter `v` with statements before and after its return. -/
def FunctionDecl.returning (live dead : List Stmt) : FunctionDecl :=
  ⟨"f", ["v"], [], ⟨live ++ .ret [] (.ofLine 4) :: dead, default⟩, default⟩

def Expr.param : Expr := .ident "v" default

def Expr.grown (e : Expr) (line : UInt32) : Expr := .callNamed "append" [e] (.ofLine line)

/-- The statement `t := e`, which mentions the region of `e`. -/
def Stmt.mention (e : Expr) : Stmt := .define ["t"] [e] (.ofLine 5)

/-- A value is grown, and so is a copy of it. -/
def Stmt.growCopy : List Stmt :=
  [.define ["w"] [.param] (.ofLine 1), .define ["x"] [Expr.param.grown 2] (.ofLine 2),
    .define ["y"] [(Expr.ident "w" default).grown 3] (.ofLine 3)]

/-- If `v.b` is mentioned after the return, it is the leaf of the value and of the copy, which were
leaves themselves. The second growth is reported as before. -/
theorem growCopy_findings_kept :
    ∃ g₀ g, (FunctionDecl.returning Stmt.growCopy []).graph .builtin = .ok g₀ ∧
      (FunctionDecl.returning Stmt.growCopy [.mention (Expr.param.field "b")]).graph .builtin =
        .ok g ∧
      FlowGraph.EvenlySplitBy .builtin (default : Settings).paths.maxPathDepth.toNat g₀ g ∧
      (FunctionDecl.returning Stmt.growCopy []).findings .builtin default =
        .ok [(⟨4⟩, some (.ofLine 3))] ∧
      (FunctionDecl.returning Stmt.growCopy [.mention (Expr.param.field "b")]).findings .builtin
        default = .ok [(⟨4⟩, some (.ofLine 3))] := by
  have heven : (do
      let g ← (FunctionDecl.returning Stmt.growCopy [.mention (Expr.param.field "b")]).graph
        .builtin
      let g₀ ← (FunctionDecl.returning Stmt.growCopy []).graph .builtin
      return FlowGraph.evenlySplitBy .builtin (default : Settings).paths.maxPathDepth.toNat g₀ g) =
      .ok true := by
    cbv
  have hwithout : (FunctionDecl.returning Stmt.growCopy []).findings .builtin default =
      .ok [(⟨4⟩, some (.ofLine 3))] := by
    cbv
  cases hg : (FunctionDecl.returning Stmt.growCopy [.mention (Expr.param.field "b")]).graph
      .builtin with
  | error e =>
      rw [hg] at heven
      cases heven
  | ok g =>
      obtain ⟨g₀, found₀, found, hg₀, hfound₀, hfound, -, hsame⟩ :=
        findings_eq_of_evenlySplitBy_dead_code default rfl hg
      have hg₀ : (FunctionDecl.returning Stmt.growCopy []).graph .builtin = .ok g₀ := hg₀
      have hfound₀ : (FunctionDecl.returning Stmt.growCopy []).findings .builtin default =
        .ok found₀ := hfound₀
      simp only [hg, hg₀, bind, Except.bind, pure, Except.pure, Except.ok.injEq,
        FlowGraph.evenlySplitBy_iff] at heven
      refine ⟨g₀, g, hg₀, rfl, heven, hwithout, ?_⟩
      rw [hfound, hsame heven, ← hfound₀, hwithout]

/-- One field is copied to another, and both are grown. -/
def Stmt.growFields : List Stmt :=
  [.assign [Expr.param.field "a"] [Expr.param.field "b"] (.ofLine 1),
    .define ["x"] [(Expr.param.field "a").grown 2] (.ofLine 2),
    .define ["y"] [(Expr.param.field "b").grown 3] (.ofLine 3)]

/-- A value is grown twice, and in between a field is replaced. -/
def Stmt.growAround : List Stmt :=
  [.define ["x"] [Expr.param.grown 1] (.ofLine 1),
    .assign [Expr.param.field "a"] [.literal default] (.ofLine 2),
    .define ["y"] [Expr.param.grown 3] (.ofLine 3)]

/-- One field is copied to another; a part of the copy is grown, and then the field. -/
def Stmt.growPart : List Stmt :=
  [.assign [Expr.param.field "a"] [Expr.param.field "b"] (.ofLine 1),
    .define ["x"] [((Expr.param.field "a").field "c").grown 2] (.ofLine 2),
    .define ["y"] [(Expr.param.field "b").grown 3] (.ofLine 3)]

/-- **Code after a return can take findings away and add some.** The mention of `v.a.c` splits the
copy of a field, but not the field, so that nothing is copied any more. The mention of `v.b` makes
it a leaf besides `v.a`, and it is grown twice. The mention of `v.b.c` gives the part that is grown
a leaf to be copied from. Each time one of the three conditions of an even split fails, and the
others hold. -/
theorem dead_code_can_change_findings :
    (default : Settings).trace.maxTraces = none ∧
    ((FunctionDecl.returning Stmt.growFields []).findings .builtin default =
        .ok [(⟨4⟩, some (.ofLine 3))] ∧
      (FunctionDecl.returning Stmt.growFields
        [.mention ((Expr.param.field "a").field "c")]).findings .builtin default = .ok []) ∧
    ((FunctionDecl.returning Stmt.growAround []).findings .builtin default = .ok [] ∧
      (FunctionDecl.returning Stmt.growAround [.mention (Expr.param.field "b")]).findings .builtin
        default = .ok [(⟨4⟩, some (.ofLine 3))]) ∧
    (FunctionDecl.returning Stmt.growPart []).findings .builtin default = .ok [] ∧
      (FunctionDecl.returning Stmt.growPart
        [.mention ((Expr.param.field "b").field "c")]).findings .builtin default =
        .ok [(⟨4⟩, some (.ofLine 3))] := by
  refine ⟨rfl, ⟨?_, ?_⟩, ⟨?_, ?_⟩, ?_, ?_⟩ <;> cbv

end SliceLineage
