import Mathlib.Data.List.Induction
import SliceLineage.Flow.Trace
import SliceLineage.Proofs.Check.Absorption

/-!
# Growing what a bounded slice expression left

A bounded slice expression takes its operand one generation back, and growing the result leads to
the generation of the operand again. So such a growth is never above the operand: it is reported if
a lineage of that generation was written before, be it the operand itself.

* `Trace.Detached`: nothing but bounded slice expressions is moved to a cell that is grown.
* `Trace.Enters`: an origin enters a trace, up to which generation; `Trace.Detached.enters`: in a
  detached trace this accounts for all that is written.
* `Trace.Regrows`: the growths of a cell that are reported, said of the moves alone.
* `Trace.Detached.repeats_iff`: a growth in a detached trace is reported exactly if it is one of
  these.
-/

namespace SliceLineage

namespace Trace

/-- Something is moved to the cell. -/
def Writes (trace : Trace) (cell : ValueId) : Prop :=
  ∃ t ∈ trace, ∃ source step, t.op = .move source cell step

/-- The cell is grown before anything is moved to it. -/
def GrowsFirst (trace : Trace) (cell : ValueId) : Prop :=
  ∃ before t after target, trace = before ++ t :: after ∧ ¬ Writes before cell ∧
    t.op = .move cell target .next ∧ target ≠ .blank

/-- The last move to the cell, with what came before it and what has happened since. -/
def LastMove (past before : Trace) (source cell : ValueId) (step : GenStep) (since : Trace) :
    Prop :=
  ∃ t, past = before ++ t :: since ∧ t.op = .move source cell step ∧ ¬ Writes since cell

/-- Only what a bounded slice expression leaves is grown. -/
def Detached (trace : Trace) : Prop :=
  ∀ t ∈ trace, ∀ u ∈ trace, ∀ cell target source step, t.op = .move cell target .next →
    cell ≠ .blank → u.op = .move source cell step → step = .prev

/-- A cell to which nothing was moved yet is copied or grown, or its bounded slice is grown. -/
def HandsOn (past : Trace) (cell : ValueId) : Prop :=
  ∃ before t after target step, past = before ++ t :: after ∧ ¬ Writes before cell ∧
    t.op = .move cell target step ∧ target ≠ .blank ∧ (step = .prev → GrowsFirst after target)

/-- A growth of the cell after `past` leads to a generation that was there already. The cell holds a
bounded slice of something that had been written, or that was handed on; or it holds something
unknown, or has not been written, and has been grown since. -/
inductive Regrows (past : Trace) (cell : ValueId) : Prop
  | sliced {before since : Trace} {base : ValueId} :
      LastMove past before base cell .prev since → base ≠ .blank →
      Writes before base ∨ HandsOn past base → Regrows past cell
  | unknown {before since : Trace} :
      LastMove past before .blank cell .prev since → GrowsFirst since cell → Regrows past cell
  | unwritten : ¬ Writes past cell → GrowsFirst past cell → Regrows past cell

variable {past before after since : Trace} {t : Transition} {cell source target : ValueId}
  {step : GenStep}

theorem writes_append {first second : Trace} :
    Writes (first ++ second) cell ↔ Writes first cell ∨ Writes second cell := by
  simp only [Writes, List.mem_append, or_and_right, exists_or]

theorem writes_cons {rest : Trace} :
    Writes (t :: rest) cell ↔
      (∃ source step, t.op = .move source cell step) ∨ Writes rest cell := by
  simp [Writes]

theorem GrowsFirst.append {trace : Trace} (h : GrowsFirst trace cell) (more : Trace) :
    GrowsFirst (trace ++ more) cell := by
  obtain ⟨before, t, after, target, rfl, hrest⟩ := h
  exact ⟨before, t, after ++ more, target, by simp, hrest⟩

/-- A cell that was written has a last move. -/
theorem Writes.exists_lastMove (h : Writes past cell) :
    ∃ before source step since, LastMove past before source cell step since := by
  induction past using List.reverseRecOn with
  | nil =>
      obtain ⟨t, ht, -⟩ := h
      cases ht
  | append_singleton past t ih =>
      by_cases hlast : ∃ source step, t.op = .move source cell step
      · obtain ⟨source, step, hop⟩ := hlast
        refine ⟨past, source, step, [], t, rfl, hop, ?_⟩
        rintro ⟨u, hu, -⟩
        cases hu
      · have hpast : Writes past cell := by
          rcases writes_append.mp h with h | h
          · exact h
          · rcases writes_cons.mp h with h | ⟨u, hu, -⟩
            · exact absurd h hlast
            · cases hu
        obtain ⟨before, source, step, since, u, rfl, hop, hsince⟩ := ih hpast
        refine ⟨before, source, step, since ++ [t], u, by simp, hop, fun hw => ?_⟩
        rcases writes_append.mp hw with hw | hw
        · exact hsince hw
        · rcases writes_cons.mp hw with hw | ⟨u, hu, -⟩
          · exact hlast hw
          · cases hu

theorem Detached.of_append {first second : Trace} (h : Detached (first ++ second)) :
    Detached first := fun t ht u hu =>
  h t (List.mem_append_left _ ht) u (List.mem_append_left _ hu)

/-- In a detached trace the cell that is grown was last moved to by a bounded slice expression. -/
theorem Detached.step_eq (hd : Detached past) (ht : t ∈ past) (hop : t.op = .move cell target .next)
    (hcell : cell ≠ .blank) {mid : Trace} (hmid : ∀ u ∈ mid, u ∈ past)
    (hlast : LastMove mid before source cell step since) : step = .prev := by
  obtain ⟨u, rfl, hu, -⟩ := hlast
  exact hd t ht u (hmid u (by simp)) cell target source step hop hcell hu

end Trace

/-! ## The history of a trace, move by move -/

namespace History

open Trace

variable {past before after since : Trace} {t : Transition} {cell source target : ValueId}
  {step : GenStep}

theorem ofTrace_append (before after : Trace) :
    ofTrace (before ++ after) = after.foldl extend (ofTrace before) := List.foldl_append

/-- Each move to a followed cell hands on what its source held before. -/
theorem mem_ofTrace (hop : t.op = .move source target step) (ht : target ≠ .blank) :
    ⟨source, target, (ofTrace before).candidate source step⟩ ∈ ofTrace (before ++ t :: after) := by
  rw [ofTrace_append, List.foldl_cons,
    extend_move hop (ValueId.isBlank_eq_false_iff.mpr ht)]
  exact mem_foldl_extend after List.mem_cons_self

theorem exists_of_mem_ofTrace {w : Writing} (h : w ∈ ofTrace past) :
    ∃ before t after source target step, past = before ++ t :: after ∧
      t.op = .move source target step ∧ target ≠ .blank ∧
      w = ⟨source, target, (ofTrace before).candidate source step⟩ := by
  induction past using List.reverseRecOn with
  | nil => cases h
  | append_singleton past t ih =>
      rw [ofTrace_append, List.foldl_cons, List.foldl_nil] at h
      have hold : w ∈ ofTrace past → ∃ before u after source target step,
          past ++ [t] = before ++ u :: after ∧ u.op = .move source target step ∧
          target ≠ .blank ∧ w = ⟨source, target, (ofTrace before).candidate source step⟩ := by
        intro hw
        obtain ⟨before, u, after, source, target, step, rfl, hrest⟩ := ih hw
        exact ⟨before, u, after ++ [t], source, target, step, by simp, hrest⟩
      rcases (ofTrace past).extend_eq_or t with ⟨hsame, -⟩ | ⟨source, target, step, hop, hb⟩
      · rw [hsame] at h
        exact hold h
      · rw [extend_move hop hb] at h
        rcases List.mem_cons.mp h with rfl | h
        · exact ⟨past, t, [], source, target, step, rfl, hop,
            ValueId.isBlank_eq_false_iff.mp hb, rfl⟩
        · exact hold h

/-- Nothing is written to a cell that no move leads to. -/
theorem lineageOf_foldl_extend (hsince : ¬ Writes since cell) :
    ∀ h : History, (since.foldl extend h).lineageOf cell = h.lineageOf cell := by
  induction since with
  | nil => exact fun _ => rfl
  | cons t rest ih =>
      intro h
      have hrest : ¬ Writes rest cell := fun hw => hsince (writes_cons.mpr (Or.inr hw))
      rw [List.foldl_cons, ih hrest]
      rcases h.extend_eq_or t with ⟨hsame, -⟩ | ⟨source, target, step, hop, hb⟩
      · rw [hsame]
      · rw [extend_move hop hb, lineageOf_cons, if_neg]
        rintro rfl
        exact hsince (writes_cons.mpr (Or.inl ⟨source, step, hop⟩))

theorem lineageOf_of_not_writes (h : ¬ Writes past cell) :
    (ofTrace past).lineageOf cell = ⟨.value cell, 0⟩ := lineageOf_foldl_extend h []

theorem lineageOf_of_lastMove (h : LastMove past before source cell step since)
    (hcell : cell ≠ .blank) :
    (ofTrace past).lineageOf cell = (ofTrace before).candidate source step := by
  obtain ⟨t, rfl, hop, hsince⟩ := h
  rw [ofTrace_append, List.foldl_cons, lineageOf_foldl_extend hsince,
    extend_move hop (ValueId.isBlank_eq_false_iff.mpr hcell), lineageOf_cons, if_pos rfl]

/-- What a cell holds that was written is in the history. -/
theorem exists_mem_of_writes (h : Writes past cell) (hcell : cell ≠ .blank) :
    ∃ w ∈ ofTrace past, w.lineage = (ofTrace past).lineageOf cell := by
  obtain ⟨before, source, step, since, hlast⟩ := h.exists_lastMove
  rw [lineageOf_of_lastMove hlast hcell]
  obtain ⟨t, rfl, hop, -⟩ := hlast
  exact ⟨_, mem_ofTrace hop hcell, rfl⟩

theorem candidate_blank (h : History) (step : GenStep) :
    h.candidate .blank step = ⟨.fresh h.unknowns, 0⟩ := rfl

theorem candidate_of_ne (h : History) (hs : source ≠ .blank) (step : GenStep) :
    h.candidate source step =
      ⟨(h.lineageOf source).origin, (h.lineageOf source).generation + step.delta⟩ := by
  cases source with
  | blank => exact absurd rfl hs
  | tracked n => rfl

/-- A bounded slice that is grown has the lineage of its base again. -/
theorem candidate_next_of_sliced (h : LastMove past before source cell .prev since)
    (hsource : source ≠ .blank) (hcell : cell ≠ .blank) :
    (ofTrace past).candidate cell .next = (ofTrace before).lineageOf source := by
  rw [candidate_of_ne _ hcell, lineageOf_of_lastMove h hcell, candidate_of_ne _ hsource]
  generalize (ofTrace before).lineageOf source = base
  show (⟨base.origin, base.generation + -1 + 1⟩ : Lineage) = base
  rw [Int.neg_add_cancel_right]

/-- What a move hands on is grown once more if the target is grown next. -/
theorem exists_mem_of_growsFirst (before : Trace) (hop : t.op = .move source target step)
    (ht : target ≠ .blank) (hgrows : GrowsFirst after target) :
    ∃ w ∈ ofTrace (before ++ t :: after), w.lineage =
      ⟨((ofTrace before).candidate source step).origin,
        ((ofTrace before).candidate source step).generation + 1⟩ := by
  obtain ⟨mid, u, rest, grown, rfl, hmid, hu, hgrown⟩ := hgrows
  have hlast : LastMove (before ++ t :: mid) before source target step mid := ⟨t, rfl, hop, hmid⟩
  refine ⟨⟨target, grown, (ofTrace (before ++ t :: mid)).candidate target .next⟩, ?_, ?_⟩
  · have hsplit : before ++ t :: (mid ++ u :: rest) = (before ++ t :: mid) ++ u :: rest := by simp
    rw [hsplit]
    exact mem_ofTrace hu hgrown
  · rw [candidate_of_ne _ ht, lineageOf_of_lastMove hlast ht]
    rfl

/-- Unknown origins tell the moves apart that they come from. -/
theorem eq_of_unknowns_eq {before' after' : Trace} {t' : Transition} {target' : ValueId}
    {step' : GenStep} (hsplit : before ++ t :: after = before' ++ t' :: after')
    (hop : t.op = .move .blank target step) (ht : target ≠ .blank)
    (hop' : t'.op = .move .blank target' step') (ht' : target' ≠ .blank)
    (hsame : (ofTrace before).unknowns = (ofTrace before').unknowns) : before = before' := by
  have hcount : ∀ trace : Trace, (ofTrace trace).unknowns =
      trace.countP (·.op.takesUnknown) := by
    intro trace
    have h := unknowns_foldl_extend trace []
    rwa [show unknowns [] = 0 from rfl, Nat.zero_add] at h
  have htakes : ∀ {u : Transition} {target : ValueId} {step : GenStep},
      u.op = .move .blank target step → target ≠ .blank → u.op.takesUnknown = true := by
    intro u target step hu htarget
    rw [hu, Operation.takesUnknown, ValueId.isBlank_eq_false_iff.mpr htarget]
    rfl
  rw [hcount, hcount] at hsame
  rcases List.append_eq_append_iff.mp hsplit with ⟨mid, rfl, hmid⟩ | ⟨mid, rfl, hmid⟩
  · cases mid with
    | nil => simp
    | cons u rest =>
        obtain ⟨rfl, -⟩ := List.cons.inj hmid
        have hmore := List.countP_cons_of_pos (l := rest)
          (p := fun u : Transition => u.op.takesUnknown) (htakes hop ht)
        rw [List.countP_append, hmore] at hsame
        omega
  · cases mid with
    | nil => simp
    | cons u rest =>
        obtain ⟨rfl, -⟩ := List.cons.inj hmid
        have hmore := List.countP_cons_of_pos (l := rest)
          (p := fun u : Transition => u.op.takesUnknown) (htakes hop' ht')
        rw [List.countP_append, hmore] at hsame
        omega

end History

/-! ## Where generations come from -/

namespace Trace

open History

/-- The origin enters the trace with a move from blank, or from a cell that was not written; and
what the move hands on has at least the generation, or gets it when the target is grown next. -/
def Enters (past : Trace) (o : Origin) (generation : Int) : Prop :=
  ∃ before t after source target step, past = before ++ t :: after ∧
    t.op = .move source target step ∧ target ≠ .blank ∧
    (source = .blank ∨ ¬ Writes before source) ∧
    ((ofTrace before).candidate source step).origin = o ∧
    (generation ≤ ((ofTrace before).candidate source step).generation ∨
      generation ≤ ((ofTrace before).candidate source step).generation + 1 ∧
        GrowsFirst after target)

variable {past before after since : Trace} {t : Transition} {cell source target : ValueId}
  {step : GenStep} {o : Origin}

theorem Enters.append {g g' : Int} (h : Enters past o g) (hle : g' ≤ g) (more : Trace) :
    Enters (past ++ more) o g' := by
  obtain ⟨before, t, after, source, target, step, rfl, hop, ht, hsource, ho, hg⟩ := h
  refine ⟨before, t, after ++ more, source, target, step, by simp, hop, ht, hsource, ho, ?_⟩
  rcases hg with hg | ⟨hg, hgrows⟩
  · exact Or.inl (Int.le_trans hle hg)
  · exact Or.inr ⟨Int.le_trans hle hg, hgrows.append more⟩

/-- **Every lineage of a detached trace comes from where its origin enters.** A copy and a bounded
slice lead back to an earlier lineage that is at least as high. A growth leads back through the
slice expression to the base, which has the same generation. -/
theorem Detached.enters (hd : Detached past) {w : Writing} (hw : w ∈ ofTrace past) :
    Enters past w.lineage.origin w.lineage.generation := by
  induction hlength : past.length using Nat.strongRecOn generalizing past w with
  | ind length ih =>
  subst hlength
  obtain ⟨before, t, after, source, target, step, rfl, hop, ht, rfl⟩ := exists_of_mem_ofTrace hw
  by_cases hfirst : source = .blank ∨ ¬ Writes before source
  · exact ⟨before, t, after, source, target, step, rfl, hop, ht, hfirst, rfl,
      Or.inl (Int.le_refl _)⟩
  obtain ⟨hs, hwrites⟩ := not_or.mp hfirst
  replace hwrites := not_not.mp hwrites
  have hbefore : Detached before := hd.of_append
  show Enters _ ((ofTrace before).candidate source step).origin
    ((ofTrace before).candidate source step).generation
  by_cases hnext : step = .next
  · subst hnext
    obtain ⟨earlier, base, step', since, hlast⟩ := hwrites.exists_lastMove
    obtain rfl := hd.step_eq (by simp) hop hs (fun u hu => List.mem_append_left _ hu) hlast
    obtain ⟨u, rfl, hu, hsince⟩ := id hlast
    by_cases hstart : base = .blank ∨ ¬ Writes earlier base
    · -- the slice is where the origin enters, and it is grown here
      refine ⟨earlier, u, since ++ t :: after, base, source, .prev, by simp, hu, hs, hstart, ?_,
        Or.inr ⟨?_, since, t, after, target, rfl, hsince, hop, ht⟩⟩
      · rw [candidate_of_ne _ hs, lineageOf_of_lastMove hlast hs]
      · rw [candidate_of_ne _ hs, lineageOf_of_lastMove hlast hs]
        exact Int.le_refl _
    · obtain ⟨hb, hbase⟩ := not_or.mp hstart
      obtain ⟨w, hw, hlineage⟩ := exists_mem_of_writes (not_not.mp hbase) hb
      have hentry := ih earlier.length (by simp) hbefore.of_append hw rfl
      have hlater := hentry.append (Int.le_refl _) (u :: since ++ t :: after)
      rw [candidate_next_of_sliced hlast hb hs, ← hlineage]
      simpa using hlater
  · obtain ⟨w, hw, hlineage⟩ := exists_mem_of_writes hwrites hs
    have hentry := ih before.length (by simp) hbefore hw rfl
    rw [candidate_of_ne _ hs, ← hlineage]
    refine hentry.append ?_ _
    cases step with
    | next => exact absurd rfl hnext
    | same => exact Int.le_of_eq (Int.add_zero _)
    | prev => exact Int.sub_le_self _ Int.one_nonneg

/-- The origin of a followed cell enters where the cell is read before it was written. -/
theorem Enters.value {g : Int} (h : Enters past (.value cell) g) :
    ∃ before t after target step, past = before ++ t :: after ∧ ¬ Writes before cell ∧
      t.op = .move cell target step ∧ target ≠ .blank ∧
      (g ≤ step.delta ∨ g ≤ step.delta + 1 ∧ GrowsFirst after target) := by
  obtain ⟨before, t, after, source, target, step, rfl, hop, ht, hsource, ho, hg⟩ := h
  have hs : source ≠ .blank := by
    rintro rfl
    cases ho
  have hunwritten := hsource.resolve_left hs
  rw [candidate_of_ne _ hs, lineageOf_of_not_writes hunwritten] at ho hg
  cases ho
  simp only [Int.zero_add] at hg
  exact ⟨before, t, after, target, step, rfl, hunwritten, hop, ht, hg⟩

/-! ## Reported growths -/

/-- A cell that was not written is grown once more. -/
theorem Detached.growsFirst_of_enters (hd : Detached past) (h : Enters past (.value cell) 1) :
    GrowsFirst past cell := by
  obtain ⟨before, t, after, target, step, rfl, hunwritten, hop, ht, hg⟩ := h.value
  have hnext : step = .next := by
    rcases hg with hg | ⟨hg, mid, u, rest, grown, rfl, -, hu, -⟩
    · cases step <;> simp [GenStep.delta] at hg ⊢
    · have hprev : step = .prev :=
        hd u (by simp) t (by simp) target grown cell step hu ht hop
      subst hprev
      simp [GenStep.delta] at hg
  subst hnext
  exact ⟨before, t, after, target, rfl, hunwritten, hop, ht⟩

theorem handsOn_of_enters (h : Enters past (.value cell) 0) : HandsOn past cell := by
  obtain ⟨before, t, after, target, step, rfl, hunwritten, hop, ht, hg⟩ := h.value
  refine ⟨before, t, after, target, step, rfl, hunwritten, hop, ht, ?_⟩
  rintro rfl
  rcases hg with hg | ⟨-, hgrows⟩
  · simp [GenStep.delta] at hg
  · exact hgrows

/-- What is handed on has its first generation at least. -/
theorem HandsOn.exists_mem (h : HandsOn past cell) (hcell : cell ≠ .blank) :
    ∃ w ∈ ofTrace past, w.lineage.origin = .value cell ∧ 0 ≤ w.lineage.generation := by
  obtain ⟨before, t, after, target, step, rfl, hunwritten, hop, ht, hgrows⟩ := h
  have hcandidate : (ofTrace before).candidate cell step = ⟨.value cell, step.delta⟩ := by
    rw [candidate_of_ne _ hcell, lineageOf_of_not_writes hunwritten]
    simp
  by_cases hprev : step = .prev
  · obtain ⟨w, hw, hlineage⟩ := exists_mem_of_growsFirst before hop ht (hgrows hprev)
    rw [hcandidate, hprev] at hlineage
    refine ⟨w, hw, ?_, ?_⟩
    · rw [hlineage]
    · rw [hlineage]
      simp [GenStep.delta]
  · refine ⟨_, mem_ofTrace hop ht, ?_, ?_⟩
    · rw [hcandidate]
    · rw [hcandidate]
      cases step with
      | prev => exact absurd rfl hprev
      | same => simp [GenStep.delta]
      | next => simp [GenStep.delta]

/-- A lineage of the origin was written that the given one does not lead above. -/
def Reached (past : Trace) (found : Lineage) : Prop :=
  ∃ w ∈ ofTrace past, w.lineage.origin = found.origin ∧ found.generation ≤ w.lineage.generation

theorem Detached.enters_of_reached (hd : Detached past) {found : Lineage}
    (h : Reached past found) : Enters past found.origin found.generation := by
  obtain ⟨w, hw, ho, hle⟩ := h
  have hentry := (hd.enters hw).append hle []
  rwa [List.append_nil, ho] at hentry

theorem Detached.reached_unwritten_iff (hd : Detached past) (hcell : cell ≠ .blank)
    (hunwritten : ¬ Writes past cell) :
    Reached past ((ofTrace past).candidate cell .next) ↔ GrowsFirst past cell := by
  have hcandidate : (ofTrace past).candidate cell .next = ⟨.value cell, 1⟩ := by
    rw [candidate_of_ne _ hcell, lineageOf_of_not_writes hunwritten]
    rfl
  rw [hcandidate]
  constructor
  · exact fun h => hd.growsFirst_of_enters (hd.enters_of_reached h)
  · rintro ⟨before, t, after, target, rfl, hbefore, hop, ht⟩
    refine ⟨_, mem_ofTrace hop ht, ?_, ?_⟩
    · rw [candidate_of_ne _ hcell, lineageOf_of_not_writes hbefore]
    · rw [candidate_of_ne _ hcell, lineageOf_of_not_writes hbefore]
      exact Int.le_refl _

theorem Detached.reached_unknown_iff (hd : Detached past) (hcell : cell ≠ .blank)
    (hlast : LastMove past before .blank cell .prev since) :
    Reached past ((ofTrace past).candidate cell .next) ↔ GrowsFirst since cell := by
  have hcandidate : (ofTrace past).candidate cell .next =
      ⟨.fresh (ofTrace before).unknowns, 1⟩ := by
    rw [candidate_of_ne _ hcell, lineageOf_of_lastMove hlast hcell]
    rfl
  rw [hcandidate]
  obtain ⟨t, rfl, hop, -⟩ := hlast
  constructor
  · intro h
    obtain ⟨before', t', after', source, target, step, hsplit, hop', ht', hsource, ho, hg⟩ :=
      hd.enters_of_reached h
    have hblank : source = .blank := by
      by_contra hs
      rw [candidate_of_ne _ hs, lineageOf_of_not_writes (hsource.resolve_left hs)] at ho
      cases ho
    subst hblank
    rw [candidate_blank] at ho hg
    obtain rfl : before = before' :=
      eq_of_unknowns_eq hsplit hop hcell hop' ht' (Origin.fresh.inj ho).symm
    obtain ⟨rfl, rfl⟩ := List.cons.inj (List.append_cancel_left hsplit)
    rw [hop] at hop'
    cases hop'
    rcases hg with hg | ⟨-, hgrows⟩
    · exact absurd hg (Int.not_le.mpr Int.zero_lt_one)
    · exact hgrows
  · intro hgrows
    obtain ⟨w, hw, hlineage⟩ := exists_mem_of_growsFirst before hop hcell hgrows
    rw [candidate_blank] at hlineage
    exact ⟨w, hw, congrArg Lineage.origin hlineage,
      Int.le_of_eq (congrArg Lineage.generation hlineage).symm⟩

theorem Detached.reached_sliced_iff (hd : Detached past) (hcell : cell ≠ .blank)
    (hsource : source ≠ .blank) (hlast : LastMove past before source cell .prev since) :
    Reached past ((ofTrace past).candidate cell .next) ↔
      Writes before source ∨ HandsOn past source := by
  rw [candidate_next_of_sliced hlast hsource hcell]
  by_cases hwrites : Writes before source
  · refine iff_of_true ?_ (Or.inl hwrites)
    obtain ⟨w, hw, hlineage⟩ := exists_mem_of_writes hwrites hsource
    obtain ⟨t, rfl, -⟩ := hlast
    refine ⟨w, ?_, congrArg Lineage.origin hlineage,
      Int.le_of_eq (congrArg Lineage.generation hlineage).symm⟩
    rw [ofTrace_append]
    exact mem_foldl_extend _ hw
  · rw [lineageOf_of_not_writes hwrites, or_iff_right hwrites]
    exact ⟨fun h => handsOn_of_enters (hd.enters_of_reached h), fun h => h.exists_mem hsource⟩

/-- The last move to a cell is the only one that splits a trace in this way. -/
theorem LastMove.unique {before' since' : Trace} {source' : ValueId} {step' : GenStep}
    (h : LastMove past before source cell step since)
    (h' : LastMove past before' source' cell step' since') :
    before = before' ∧ source = source' ∧ step = step' ∧ since = since' := by
  obtain ⟨t, rfl, hop, hsince⟩ := h
  obtain ⟨t', hsplit, hop', hsince'⟩ := h'
  rcases List.append_eq_append_iff.mp hsplit with ⟨mid, rfl, hmid⟩ | ⟨mid, rfl, hmid⟩
  · cases mid with
    | nil =>
        obtain ⟨rfl, rfl⟩ := List.cons.inj hmid
        rw [hop] at hop'
        cases hop'
        simp
    | cons u rest =>
        obtain ⟨-, rfl⟩ := List.cons.inj hmid
        exact absurd ⟨t', by simp, source', step', hop'⟩ hsince
  · cases mid with
    | nil =>
        obtain ⟨rfl, rfl⟩ := List.cons.inj hmid
        rw [hop] at hop'
        cases hop'
        simp
    | cons u rest =>
        obtain ⟨-, rfl⟩ := List.cons.inj hmid
        exact absurd ⟨t, by simp, source, step, hop⟩ hsince'

/-- **A growth in a detached trace is reported exactly if the cell regrows.** -/
theorem Detached.repeats_iff (hd : Detached (past ++ [t])) :
    (∃ c, (ofTrace past).Repeats t c) ↔
      ∃ cell target, t.op = .move cell target .next ∧ cell ≠ .blank ∧ target ≠ .blank ∧
        Regrows past cell := by
  have hpast : Detached past := hd.of_append
  have hrepeats : (∃ c, (ofTrace past).Repeats t c) ↔
      ∃ cell target, t.op = .move cell target .next ∧ cell ≠ .blank ∧ target ≠ .blank ∧
        Reached past ((ofTrace past).candidate cell .next) := by
    constructor
    · rintro ⟨-, cell, target, hop, hcell, ht, hreached, -⟩
      exact ⟨cell, target, hop, hcell, ht, hreached⟩
    · rintro ⟨cell, target, hop, hcell, ht, hreached⟩
      exact ⟨_, cell, target, hop, hcell, ht, hreached, rfl⟩
  rw [hrepeats]
  refine exists_congr fun cell => exists_congr fun target => and_congr_right fun hop =>
    and_congr_right fun hcell => and_congr_right fun ht => ?_
  by_cases hwrites : Writes past cell
  · obtain ⟨before, source, step, since, hlast⟩ := hwrites.exists_lastMove
    obtain rfl : step = .prev :=
      hd.step_eq (by simp) hop hcell (fun u hu => List.mem_append_left _ hu) hlast
    by_cases hs : source = .blank
    · subst hs
      rw [hpast.reached_unknown_iff hcell hlast]
      refine ⟨.unknown hlast, fun h => ?_⟩
      cases h with
      | sliced hlast' hbase _ => exact absurd (hlast.unique hlast').2.1.symm hbase
      | unknown hlast' hgrows => exact (hlast.unique hlast').2.2.2 ▸ hgrows
      | unwritten hnot _ => exact absurd hwrites hnot
    · rw [hpast.reached_sliced_iff hcell hs hlast]
      refine ⟨.sliced hlast hs, fun h => ?_⟩
      cases h with
      | sliced hlast' _ hbase =>
          obtain ⟨rfl, rfl, -, -⟩ := hlast.unique hlast'
          exact hbase
      | unknown hlast' _ => exact absurd (hlast.unique hlast').2.1 hs
      | unwritten hnot _ => exact absurd hwrites hnot
  · rw [hpast.reached_unwritten_iff hcell hwrites]
    refine ⟨.unwritten hwrites, fun h => ?_⟩
    cases h with
    | sliced hlast _ _ =>
        obtain ⟨u, rfl, hu, -⟩ := hlast
        exact absurd ⟨u, by simp, _, _, hu⟩ hwrites
    | unknown hlast _ =>
        obtain ⟨u, rfl, hu, -⟩ := hlast
        exact absurd ⟨u, by simp, _, _, hu⟩ hwrites
    | unwritten _ hgrows => exact hgrows

end Trace

end SliceLineage
