import SliceLineage.Proofs.Check.History

/-!
# Blank is absorbed

Something unknown gets an origin of its own each time it is read, so it never repeats a generation.
What goes to blank is lost, and leaves no record. A cell becomes an origin at most once in a run: it
has to be read while nothing was written to it.

* `Ledger.next`, `Ledger.run`: the ledger after a transition that may be refused, and after many.
* `History.Derived`: each lineage of a history was handed on from what was written before;
  `History.Derived.enters_iff`: when a cell becomes an origin.
* `Ledger.Accounts`: the history behind a ledger; `Ledger.Knows`: an origin occurs in the ledger,
  which is to say in that history.
* `blank_absorbed`: the result for every run.
-/

namespace SliceLineage

namespace Operation

/-- The operation moves nothing, or moves it to blank. -/
def isIdle : Operation → Bool
  | move _ target _ => target.isBlank
  | noop | ret _ => true
  | assign .. | call .. => false

/-- The operation fills a followed cell with something unknown. -/
def takesUnknown : Operation → Bool
  | move source target _ => source.isBlank && !target.isBlank
  | _ => false

/-- The operation hands on the content of the cell, or replaces it. -/
def Uses (op : Operation) (cell : ValueId) : Prop :=
  ∃ source target step, op = .move source target step ∧ target ≠ .blank ∧
    (source = cell ∨ target = cell)

end Operation

/-! ## Histories -/

namespace History

/-- Each lineage was handed on from what was written before. -/
inductive Derived : History → Prop
  | nil : Derived []
  | cons {h : History} (hd : Derived h) (source target : ValueId) (step : GenStep) :
      Derived (⟨source, target, h.candidate source step⟩ :: h)

/-- A lineage of the origin was written. -/
def Has (h : History) (o : Origin) : Prop := ∃ w ∈ h, w.lineage.origin = o

/-- The cell was read, or something was written to it. -/
def Used (h : History) (cell : ValueId) : Prop := ∃ w ∈ h, w.source = cell ∨ w.target = cell

variable {h : History} {t : Transition} {cell v : ValueId} {o : Origin}

theorem has_cons {w : Writing} : Has (w :: h) o ↔ w.lineage.origin = o ∨ h.Has o := by
  simp [Has]

theorem used_cons {w : Writing} :
    Used (w :: h) cell ↔ (w.source = cell ∨ w.target = cell) ∨ h.Used cell := by
  simp [Used]

theorem Derived.extend (hd : h.Derived) (t : Transition) : (h.extend t).Derived := by
  rcases h.extend_eq_or t with ⟨hsame, -⟩ | ⟨source, target, step, hop, hb⟩
  · rw [hsame]
    exact hd
  · rw [extend_move hop hb]
    exact .cons hd source target step

theorem lineageOf_eq_self (hnone : ∀ w ∈ h, w.target ≠ cell) :
    h.lineageOf cell = ⟨.value cell, 0⟩ := by
  have hfind : h.find? (·.target == cell) = none :=
    List.find?_eq_none.mpr fun w hw => by simpa using hnone w hw
  rw [lineageOf, hfind]
  rfl

/-- A cell that was written holds an origin that was written. -/
theorem has_lineageOf {w : Writing} (hw : w ∈ h) (ht : w.target = cell) :
    h.Has (h.lineageOf cell).origin := by
  unfold lineageOf
  cases hf : h.find? (·.target == cell) with
  | none => exact absurd (beq_iff_eq.mpr ht) (List.find?_eq_none.mp hf w hw)
  | some w' => exact ⟨w', List.mem_of_find?_eq_some hf, rfl⟩

/-- Only a cell that was never written can be handed on as a new origin. -/
theorem eq_of_candidate_origin {source : ValueId} {step : GenStep} (hnew : ¬ h.Has (.value v))
    (ho : (h.candidate source step).origin = .value v) :
    source = v ∧ source ≠ .blank ∧ ∀ w ∈ h, w.target ≠ source := by
  by_cases hb : source = .blank
  · subst hb
    cases ho
  rw [candidate_origin h hb] at ho
  have hnone : ∀ w ∈ h, w.target ≠ source := by
    intro w hw ht
    exact hnew (ho ▸ has_lineageOf hw ht)
  rw [lineageOf_eq_self hnone] at ho
  cases ho
  exact ⟨rfl, hb, hnone⟩

/-- A cell that is an origin was used. -/
theorem Derived.used_of_has (hd : h.Derived) (ho : h.Has (.value v)) : h.Used v := by
  induction hd with
  | nil =>
      obtain ⟨w, hw, -⟩ := ho
      cases hw
  | @cons h _ source target step ih =>
      refine used_cons.mpr ?_
      by_cases hold : h.Has (.value v)
      · exact Or.inr (ih hold)
      · have hnew := (has_cons.mp ho).resolve_right hold
        exact Or.inl (Or.inl (eq_of_candidate_origin hold hnew).1)

/-- A cell that was used and never written is an origin. -/
theorem Derived.has_of_used (hd : h.Derived) (hv : v ≠ .blank) (hu : h.Used v)
    (hnone : ∀ w ∈ h, w.target ≠ v) : h.Has (.value v) := by
  induction hd with
  | nil =>
      obtain ⟨w, hw, -⟩ := hu
      cases hw
  | @cons h _ source target step ih =>
      have hrest : ∀ w ∈ h, w.target ≠ v := fun w hw => hnone w (List.mem_cons_of_mem _ hw)
      refine has_cons.mpr ?_
      rcases used_cons.mp hu with (hs | ht) | hu
      · left
        have hs : source = v := hs
        rw [hs, candidate_origin h hv, lineageOf_eq_self hrest]
      · exact absurd ht (hnone _ List.mem_cons_self)
      · exact Or.inr (ih hu hrest)

/-- **A cell becomes an origin when it is read before it was used in any way.** -/
theorem Derived.enters_iff (hd : h.Derived) :
    (¬ h.Has (.value v) ∧ (h.extend t).Has (.value v)) ↔
      v ≠ .blank ∧ (∃ target step, t.op = .move v target step ∧ target ≠ .blank) ∧ ¬ h.Used v := by
  constructor
  · rintro ⟨hnot, hhas⟩
    rcases h.extend_eq_or t with ⟨hsame, -⟩ | ⟨source, target, step, hop, hb⟩
    · exact absurd (hsame ▸ hhas) hnot
    · rw [extend_move hop hb] at hhas
      obtain ⟨rfl, hsource, hnone⟩ :=
        eq_of_candidate_origin hnot ((has_cons.mp hhas).resolve_right hnot)
      exact ⟨hsource, ⟨target, step, hop, ValueId.isBlank_eq_false_iff.mp hb⟩,
        fun hu => hnot (hd.has_of_used hsource hu hnone)⟩
  · rintro ⟨hv, ⟨target, step, hop, htarget⟩, hunused⟩
    have hnone : ∀ w ∈ h, w.target ≠ v := fun w hw ht => hunused ⟨w, hw, Or.inr ht⟩
    refine ⟨fun hhas => hunused (hd.used_of_has hhas), ?_⟩
    rw [extend_move hop (ValueId.isBlank_eq_false_iff.mpr htarget)]
    refine has_cons.mpr (Or.inl ?_)
    rw [candidate_origin h hv, lineageOf_eq_self hnone]

theorem used_extend (h : History) (t : Transition) :
    (h.extend t).Used v ↔ t.op.Uses v ∨ h.Used v := by
  rcases h.extend_eq_or t with ⟨hsame, hnone⟩ | ⟨source, target, step, hop, hb⟩
  · rw [hsame]
    refine ⟨Or.inr, fun hu => hu.resolve_left ?_⟩
    rintro ⟨source, target, step, hop, htarget, -⟩
    exact htarget (hnone source target step hop)
  · rw [extend_move hop hb, used_cons, hop]
    have htarget := ValueId.isBlank_eq_false_iff.mp hb
    refine or_congr_left ⟨fun hu => ⟨source, target, step, rfl, htarget, hu⟩, ?_⟩
    rintro ⟨_, _, _, hop', -, hu⟩
    cases hop'
    exact hu

theorem used_foldl_extend (trace : List Transition) :
    ∀ h : History, (trace.foldl extend h).Used v ↔ h.Used v ∨ ∃ t ∈ trace, t.op.Uses v := by
  induction trace with
  | nil => simp
  | cons t rest ih =>
      intro h
      rw [List.foldl_cons, ih, used_extend]
      simp [or_assoc, or_left_comm]

theorem unknowns_extend (h : History) (t : Transition) :
    (h.extend t).unknowns = h.unknowns + if t.op.takesUnknown then 1 else 0 := by
  obtain ⟨point, op⟩ := t
  cases op with
  | move source target step =>
      cases hb : target.isBlank <;> simp [extend, Operation.takesUnknown, hb, unknowns_cons]
  | noop => rfl
  | ret values => rfl
  | assign source target => rfl
  | call func inputs outputs => rfl

theorem unknowns_foldl_extend (trace : List Transition) :
    ∀ h : History, (trace.foldl extend h).unknowns =
      h.unknowns + trace.countP (·.op.takesUnknown) := by
  induction trace with
  | nil => exact fun h => rfl
  | cons t rest ih =>
      intro h
      rw [List.foldl_cons, ih, unknowns_extend, List.countP_cons]
      omega

end History

/-! ## Runs -/

namespace Ledger

/-- The ledger after a transition, also if it was refused. -/
def next (l : Ledger) (t : Transition) : Ledger := (l.step t).2

/-- The ledger after a run in which transitions may have been refused. -/
def run (l : Ledger) (trace : List Transition) : Ledger := trace.foldl next l

/-- The origin occurs in the ledger, in a lineage or with its highest generation. -/
def Knows (l : Ledger) (o : Origin) : Prop :=
  (∃ cell g, l.lineage? cell = some ⟨o, g⟩) ∨ ∃ g, l.highest? o = some g

/-- The transition brings the origin into the ledger. -/
def Enters (l : Ledger) (t : Transition) (o : Origin) : Prop := ¬ l.Knows o ∧ (l.next t).Knows o

/-- The ledger knows what the history says, and has noted only cells that were used. -/
structure Accounts (l : Ledger) (h : History) : Prop where
  records : l.Records h
  derived : h.Derived
  noted : ∀ cell found, l.lineage? cell = some found → cell ≠ .blank ∧ h.Used cell

variable {l : Ledger} {h : History} {t : Transition}

theorem step_of_isIdle (l : Ledger) (hidle : t.op.isIdle) : l.step t = (.ok none, l) := by
  obtain ⟨point, op⟩ := t
  cases op with
  | move source target step =>
      have hb : target.isBlank = true := hidle
      simp [Ledger.step, move, hb]
  | noop => rfl
  | ret values => rfl
  | assign source target => cases hidle
  | call func inputs outputs => cases hidle

theorem step_of_not_isPrimitive (l : Ledger) (ht : ¬ t.op.isPrimitive) :
    ∃ e, l.step t = (.error e, l) := by
  obtain ⟨point, op⟩ := t
  cases op with
  | move source target step => exact absurd rfl ht
  | noop => exact absurd rfl ht
  | ret values => exact absurd rfl ht
  | assign source target => exact ⟨_, rfl⟩
  | call func inputs outputs => exact ⟨_, rfl⟩

theorem next_of_step {answer : Except AnalysisError (Option Conflict)} {l' : Ledger}
    (hstep : l.step t = (answer, l')) : l.next t = l' := by
  rw [next, hstep]

/-- A move to a followed cell reads and writes. -/
theorem next_of_move {source target : ValueId} {step : GenStep}
    (hop : t.op = .move source target step) (hb : target.isBlank = false) :
    l.next t = (l.read source step).2.write target (l.read source step).1 := by
  simp [next, Ledger.step, hop, move, hb]

/-- Nothing but a move to a followed cell has an effect. -/
theorem next_of_not_move
    (hnone : ∀ source target step, t.op = .move source target step → target = .blank) :
    l.next t = l := by
  obtain ⟨point, op⟩ := t
  cases op with
  | move source target step =>
      refine next_of_step (step_of_isIdle l ?_)
      exact ValueId.isBlank_iff.mpr (hnone source target step rfl)
  | noop => rfl
  | ret values => rfl
  | assign source target => rfl
  | call func inputs outputs => rfl

theorem lineage?_write (l : Ledger) (target : ValueId) (found : Lineage) (cell : ValueId) :
    (l.write target found).lineage? cell =
      if target = cell then some found else l.lineage? cell := by
  simp only [lineage?, write, Std.TreeMap.getElem?_insert, Std.LawfulEqCmp.compare_eq_iff_eq]

/-- Reading notes no other cell than the one that is read. -/
theorem lineage?_read {source cell : ValueId} {step : GenStep} {found : Lineage}
    (hfound : (l.read source step).2.lineage? cell = some found) :
    source ≠ .blank ∧ source = cell ∨ l.lineage? cell = some found := by
  unfold read at hfound
  split at hfound
  · exact Or.inr hfound
  · rename_i hb
    simp only [lineage?, Std.TreeMap.getElem?_insertIfNew,
      Std.LawfulEqCmp.compare_eq_iff_eq] at hfound
    split at hfound
    · rename_i hs
      exact Or.inl ⟨fun e => hb (ValueId.isBlank_iff.mpr e), hs.1⟩
    · exact Or.inr hfound

theorem accounts_empty : empty.Accounts [] where
  records := records_empty
  derived := .nil
  noted cell found hfound := by simp [lineage?, empty] at hfound

/-- **One transition**, refused or not, adds to the ledger what it adds to the history. -/
theorem Accounts.next (ha : l.Accounts h) (t : Transition) :
    (l.next t).Accounts (h.extend t) := by
  rcases h.extend_eq_or t with ⟨hsame, hnone⟩ | ⟨source, target, step, hop, hb⟩
  · rw [next_of_not_move hnone, hsame]
    exact ha
  · refine ⟨?_, ha.derived.extend t, fun cell found hfound => ?_⟩
    · rw [next_of_move hop hb, History.extend_move hop hb]
      exact ha.records.write_read source target step
    · rw [next_of_move hop hb, lineage?_write] at hfound
      rw [History.extend_move hop hb, History.used_cons]
      split at hfound
      · rename_i htarget
        subst htarget
        exact ⟨ValueId.isBlank_eq_false_iff.mp hb, Or.inl (Or.inr rfl)⟩
      · rcases lineage?_read hfound with ⟨hsource, rfl⟩ | hold
        · exact ⟨hsource, Or.inl (Or.inl rfl)⟩
        · exact ⟨(ha.noted cell found hold).1, Or.inr (ha.noted cell found hold).2⟩

/-- **A run** keeps the ledger and the history together. -/
theorem Accounts.run (trace : List Transition) :
    ∀ {l : Ledger} {h : History}, l.Accounts h →
      (l.run trace).Accounts (trace.foldl History.extend h) := by
  induction trace with
  | nil => exact fun ha => ha
  | cons t rest ih => exact fun ha => ih (ha.next t)

/-- The origins of a ledger are those of its history. -/
theorem Accounts.knows_iff (ha : l.Accounts h) {o : Origin} : l.Knows o ↔ h.Has o := by
  constructor
  · rintro (⟨cell, g, hfound⟩ | ⟨g, hg⟩)
    · have hheld : h.lineageOf cell = ⟨o, g⟩ := by
        rw [← ha.records.lineage, lineage, hfound]
        rfl
      obtain ⟨hcell, hused⟩ := ha.noted cell _ hfound
      by_cases hw : ∃ w ∈ h, w.target = cell
      · obtain ⟨w, hw, ht⟩ := hw
        have hhas := History.has_lineageOf hw ht
        rwa [hheld] at hhas
      · have hnone : ∀ w ∈ h, w.target ≠ cell := fun w hmem ht => hw ⟨w, hmem, ht⟩
        rw [History.lineageOf_eq_self hnone] at hheld
        cases hheld
        exact ha.derived.has_of_used hcell hused hnone
    · rw [ha.records.highest] at hg
      obtain ⟨w, hw, ho, -⟩ := History.mem_generations.mp (List.max?_mem hg)
      exact ⟨w, hw, ho⟩
  · rintro ⟨w, hw, rfl⟩
    obtain ⟨g, hg, -⟩ := ha.records.exists_highest? hw
    exact Or.inr ⟨g, hg⟩

/-- An origin that is known stays known. -/
theorem Accounts.knows_run (ha : l.Accounts h) {o : Origin} (ho : l.Knows o)
    (trace : List Transition) : (l.run trace).Knows o := by
  obtain ⟨w, hw, hwo⟩ := ha.knows_iff.mp ho
  exact (ha.run trace).knows_iff.mpr ⟨w, History.mem_foldl_extend trace hw, hwo⟩

/-- Something unknown is an origin that did not occur before. -/
theorem Accounts.not_knows_fresh (ha : l.Accounts h) : ¬ l.Knows (.fresh l.nextFresh) := by
  rw [ha.knows_iff, ha.records.fresh]
  rintro ⟨w, hw, ho⟩
  exact Nat.lt_irrefl _ (ha.records.numbered w hw _ ho)

/-- Filling a followed cell with something unknown is never reported. -/
theorem Accounts.step_blank (ha : l.Accounts h) {target : ValueId} (htarget : target ≠ .blank)
    (step : GenStep) (point : PointId) :
    ∃ l', l.step ⟨point, .move .blank target step⟩ = (.ok none, l') ∧
      l'.lineage? target = some ⟨.fresh l.nextFresh, 0⟩ := by
  obtain ⟨found, l', hstep, -, hreport⟩ :=
    step_records ha.records (t := ⟨point, .move .blank target step⟩) rfl
  have hnone : found = none := by
    refine Option.eq_none_iff_forall_ne_some.mpr fun c hc => ?_
    obtain ⟨_, _, hop, hsource, -⟩ := (hreport c).mp hc
    cases hop
    exact hsource rfl
  subst hnone
  refine ⟨l', hstep, ?_⟩
  rw [← next_of_step hstep, next_of_move rfl (ValueId.isBlank_eq_false_iff.mpr htarget),
    lineage?_write, if_pos rfl]
  rfl

/-- Transitions without effect can be left out. -/
theorem conflicts_filter_not_isIdle (trace : List Transition) :
    ∀ l : Ledger, l.conflicts (trace.filter (!·.op.isIdle)) = l.conflicts trace := by
  induction trace with
  | nil => exact fun l => rfl
  | cons t rest ih =>
      intro l
      cases hidle : t.op.isIdle with
      | true =>
          rw [List.filter_cons_of_neg (by simp [hidle]), ih, conflicts, step_of_isIdle l hidle]
          cases hrest : l.conflicts rest <;> simp [hrest, bind, Except.bind, pure, Except.pure]
      | false =>
          rw [List.filter_cons_of_pos (by simp [hidle]), conflicts, conflicts]
          simp only [ih]

end Ledger

/-- **Blank is absorbed.** After every run, whether or not some of its transitions were refused:
filling a cell with something unknown is not reported, and gives it an origin that does not occur in
the ledger; the numbers of such origins count the fillings. A transition without effect and a field
operation, which is refused, leave the ledger as it is. A cell becomes an origin when it is read
before it was used in any way, and no origin ever enters twice. Transitions without effect can
be left out of a trace. -/
theorem blank_absorbed (past : List Transition) :
    ∃ l, Ledger.empty.run past = l ∧ l.nextFresh = past.countP (·.op.takesUnknown) ∧
      (∀ target step point, target ≠ .blank → ∃ o l',
        l.step ⟨point, .move .blank target step⟩ = (.ok none, l') ∧ ¬ l.Knows o ∧
        l'.lineage? target = some ⟨o, 0⟩) ∧
      (∀ t, t.op.isIdle → l.step t = (.ok none, l)) ∧
      (∀ t, ¬ t.op.isPrimitive → ∃ e, l.step t = (.error e, l)) ∧
      (∀ t v, l.Enters t (.value v) ↔
        v ≠ .blank ∧ (∃ target step, t.op = .move v target step ∧ target ≠ .blank) ∧
          ∀ u ∈ past, ¬ u.op.Uses v) ∧
      (∀ t o later t', l.Enters t o → ¬ ((l.next t).run later).Enters t' o) ∧
      traceConflicts (past.filter (!·.op.isIdle)) = traceConflicts past := by
  have ha := Ledger.accounts_empty.run past
  refine ⟨_, rfl, ?_, ?_, fun t => Ledger.step_of_isIdle _,
    fun t => Ledger.step_of_not_isPrimitive _, ?_, ?_,
    Ledger.conflicts_filter_not_isIdle past Ledger.empty⟩
  · rw [ha.records.fresh, History.unknowns_foldl_extend]
    exact Nat.zero_add _
  · intro target step point htarget
    obtain ⟨l', hstep, hheld⟩ := ha.step_blank htarget step point
    exact ⟨_, l', hstep, ha.not_knows_fresh, hheld⟩
  · intro t v
    rw [Ledger.Enters, ha.knows_iff, (ha.next t).knows_iff, ha.derived.enters_iff,
      History.used_foldl_extend]
    simp [History.Used]
  · intro t o later t' henters hagain
    exact hagain.1 ((ha.next t).knows_run henters.2 later)

end SliceLineage
