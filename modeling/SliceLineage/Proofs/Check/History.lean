import SliceLineage.Check.Ledger

/-!
# The ledger against the history of a replay

A ledger keeps the current lineage of each cell and the highest generation of each origin. The
`History` of a trace keeps everything instead: each lineage that was written to a cell, newest
first. It is said without maps and without a running maximum.

* `Ledger.Records`: a ledger knows what a history says; `Ledger.step_records`: one transition keeps
  it so, `Ledger.replay_records`: so does a whole primitive trace.
* `replay_conflict_iff_repeats`: a replay reports a transition exactly if it is a growth that does
  not lead above an earlier lineage of the same origin.
-/

namespace SliceLineage

/-- A lineage written to a cell, with the cell that it was read from. -/
structure Writing where
  source : ValueId
  target : ValueId
  lineage : Lineage
  deriving DecidableEq

/-- What a trace has written, newest first. -/
abbrev History := List Writing

namespace History

/-- The lineage written last to a cell; a cell that was never written is its own origin. -/
def lineageOf (h : History) (cell : ValueId) : Lineage :=
  ((h.find? (·.target == cell)).map Writing.lineage).getD ⟨.value cell, 0⟩

/-- How many writings took something unknown. -/
def unknowns (h : History) : Nat := h.countP (·.source.isBlank)

/-- What a move from `source` hands on: something unknown is an origin of its own, a cell's
lineage moves by the step. -/
def candidate (h : History) (source : ValueId) (step : GenStep) : Lineage :=
  if source.isBlank then ⟨.fresh h.unknowns, 0⟩
  else ⟨(h.lineageOf source).origin, (h.lineageOf source).generation + step.delta⟩

/-- The history after one more transition. -/
def extend (h : History) (t : Transition) : History :=
  match t.op with
  | .move source target step =>
      if target.isBlank then h else ⟨source, target, h.candidate source step⟩ :: h
  | _ => h

/-- The history of a trace. -/
def ofTrace (trace : List Transition) : History := trace.foldl extend []

/-- The generations of an origin that were written. -/
def generations (h : History) (o : Origin) : List Int :=
  (h.filter (·.lineage.origin == o)).map (·.lineage.generation)

/-- The transition grows a cell into another one, and the lineage that it hands on does not lead
above an earlier one of the same origin. -/
def Repeats (h : History) (t : Transition) (c : Conflict) : Prop :=
  ∃ source target, t.op = .move source target .next ∧ source ≠ .blank ∧ target ≠ .blank ∧
    (∃ w ∈ h, w.lineage.origin = (h.candidate source .next).origin ∧
      (h.candidate source .next).generation ≤ w.lineage.generation) ∧
    c = ⟨t.target, (h.candidate source .next).origin, source⟩

theorem mem_extend {h : History} {w : Writing} (hw : w ∈ h) (t : Transition) : w ∈ h.extend t := by
  unfold extend
  split
  · split
    · exact hw
    · exact List.mem_cons_of_mem _ hw
  · exact hw

/-- The history after a move to a followed cell. -/
theorem extend_move {h : History} {t : Transition} {source target : ValueId} {step : GenStep}
    (hop : t.op = .move source target step) (ht : target.isBlank = false) :
    h.extend t = ⟨source, target, h.candidate source step⟩ :: h := by
  simp [extend, hop, ht]

/-- Nothing but a move to a followed cell has an effect. -/
theorem extend_eq_or (h : History) (t : Transition) :
    (h.extend t = h ∧ ∀ source target step, t.op = .move source target step → target = .blank) ∨
    ∃ source target step, t.op = .move source target step ∧ target.isBlank = false := by
  obtain ⟨point, op⟩ := t
  cases op with
  | move source target step =>
      cases target with
      | blank =>
          refine Or.inl ⟨rfl, fun _ _ _ hop => ?_⟩
          cases hop
          rfl
      | tracked n => exact Or.inr ⟨source, .tracked n, step, rfl, rfl⟩
  | noop => exact Or.inl ⟨rfl, fun _ _ _ hop => by cases hop⟩
  | ret values => exact Or.inl ⟨rfl, fun _ _ _ hop => by cases hop⟩
  | assign source target => exact Or.inl ⟨rfl, fun _ _ _ hop => by cases hop⟩
  | call func inputs outputs => exact Or.inl ⟨rfl, fun _ _ _ hop => by cases hop⟩

theorem mem_generations {h : History} {o : Origin} {g : Int} :
    g ∈ h.generations o ↔ ∃ w ∈ h, w.lineage.origin = o ∧ w.lineage.generation = g := by
  simp [generations, and_assoc]

theorem generations_cons (w : Writing) (h : History) (o : Origin) :
    generations (w :: h) o =
      if w.lineage.origin = o then w.lineage.generation :: h.generations o
      else h.generations o := by
  by_cases e : w.lineage.origin = o <;> simp [generations, e]

theorem lineageOf_cons (w : Writing) (h : History) (cell : ValueId) :
    lineageOf (w :: h) cell = if w.target = cell then w.lineage else h.lineageOf cell := by
  by_cases e : w.target = cell <;> simp [lineageOf, e]

theorem unknowns_cons (w : Writing) (h : History) :
    unknowns (w :: h) = h.unknowns + if w.source.isBlank then 1 else 0 := by
  simp [unknowns, List.countP_cons]

/-- What a cell holds was written to it, unless the cell is its own origin. -/
theorem lineageOf_mem (h : History) (cell : ValueId) :
    h.lineageOf cell = ⟨.value cell, 0⟩ ∨ ∃ w ∈ h, w.lineage = h.lineageOf cell := by
  unfold lineageOf
  cases hf : h.find? (·.target == cell) with
  | none => exact Or.inl rfl
  | some w => exact Or.inr ⟨w, List.mem_of_find?_eq_some hf, rfl⟩

theorem candidate_origin (h : History) {source : ValueId} (hs : source ≠ .blank) (step : GenStep) :
    (h.candidate source step).origin = (h.lineageOf source).origin := by
  rw [candidate, ValueId.isBlank_eq_false_iff.mpr hs]
  rfl

/-- Unknown origins are numbered in the order of their use. -/
def Numbered (h : History) : Prop :=
  ∀ w ∈ h, ∀ n, w.lineage.origin = .fresh n → n < h.unknowns

theorem Numbered.lineageOf {h : History} (hn : h.Numbered) {cell : ValueId} {n : Nat}
    (ho : (h.lineageOf cell).origin = .fresh n) : n < h.unknowns := by
  rcases h.lineageOf_mem cell with he | ⟨w, hw, he⟩
  · rw [he] at ho
    cases ho
  · exact hn w hw n (he ▸ ho)

theorem Numbered.cons {h : History} (hn : h.Numbered) (source target : ValueId)
    (step : GenStep) : Numbered (⟨source, target, h.candidate source step⟩ :: h) := by
  intro w hw n ho
  rw [unknowns_cons]
  rcases List.mem_cons.mp hw with rfl | hw
  · unfold candidate at ho
    by_cases hb : source.isBlank
    · simp only [hb, if_true, Origin.fresh.injEq] at ho ⊢
      omega
    · simp only [hb] at ho
      have := hn.lineageOf ho
      omega
  · have := hn w hw n ho
    omega

end History

theorem any_max? {gs : List Int} {g : Int} :
    gs.max?.any (g ≤ ·) = true ↔ ∃ x ∈ gs, g ≤ x := by
  cases hm : gs.max? with
  | none =>
      rw [List.max?_eq_none_iff] at hm
      simp [hm]
  | some m =>
      obtain ⟨hmem, hle⟩ := List.max?_eq_some_iff.mp hm
      simp only [Option.any_some, decide_eq_true_eq]
      constructor
      · exact fun h => ⟨m, hmem, h⟩
      · rintro ⟨x, hx, h⟩
        exact Int.le_trans h (hle x hx)

namespace Ledger

/-- The ledger after a trace. -/
def replay (l : Ledger) (trace : List Transition) : Except AnalysisError Ledger :=
  trace.foldlM (fun l t => (l.step t).1.map fun _ => (l.step t).2) l

/-- The ledger knows of each cell and each origin what the history says. -/
structure Records (l : Ledger) (h : History) : Prop where
  lineage : ∀ cell, l.lineage cell = h.lineageOf cell
  highest : ∀ o, l.highest? o = (h.generations o).max?
  fresh : l.nextFresh = h.unknowns
  numbered : h.Numbered

theorem records_empty : empty.Records [] where
  lineage cell := by simp [lineage, lineage?, empty, History.lineageOf]
  highest o := by simp [highest?, empty, History.generations]
  fresh := rfl
  numbered w hw := absurd hw List.not_mem_nil

variable {l : Ledger} {h : History}

theorem Records.isStale_iff (hr : l.Records h) (found : Lineage) :
    l.isStale found = true ↔
      ∃ w ∈ h, w.lineage.origin = found.origin ∧ found.generation ≤ w.lineage.generation := by
  unfold isStale
  rw [hr.highest, any_max?]
  constructor
  · rintro ⟨g, hg, hle⟩
    obtain ⟨w, hw, ho, rfl⟩ := History.mem_generations.mp hg
    exact ⟨w, hw, ho, hle⟩
  · rintro ⟨w, hw, ho, hle⟩
    exact ⟨_, History.mem_generations.mpr ⟨w, hw, ho, rfl⟩, hle⟩

theorem Records.read_fst (hr : l.Records h) (source : ValueId) (step : GenStep) :
    (l.read source step).1 = h.candidate source step := by
  unfold read History.candidate
  split
  · rw [hr.fresh]
  · rw [hr.lineage]

/-- Reading a cell for the first time notes its lineage, which changes nothing that the ledger says
about any cell. -/
theorem lineage_read (l : Ledger) (source : ValueId) (step : GenStep) (cell : ValueId) :
    (l.read source step).2.lineage cell = l.lineage cell := by
  unfold read
  split
  · rfl
  · simp only [lineage, lineage?, Std.TreeMap.getElem?_insertIfNew,
      Std.LawfulEqCmp.compare_eq_iff_eq]
    split
    · rename_i hs
      obtain ⟨rfl, hmem⟩ := hs
      simp [Std.TreeMap.getElem?_eq_none hmem]
    · rfl

theorem highest?_read (l : Ledger) (source : ValueId) (step : GenStep) (o : Origin) :
    (l.read source step).2.highest? o = l.highest? o := by
  unfold read
  split <;> rfl

theorem nextFresh_read (l : Ledger) (source : ValueId) (step : GenStep) :
    (l.read source step).2.nextFresh = l.nextFresh + if source.isBlank then 1 else 0 := by
  unfold read
  split <;> simp_all

theorem lineage_write (l : Ledger) (target : ValueId) (found : Lineage) (cell : ValueId) :
    (l.write target found).lineage cell = if target = cell then found else l.lineage cell := by
  simp only [lineage, lineage?, write, Std.TreeMap.getElem?_insert,
    Std.LawfulEqCmp.compare_eq_iff_eq]
  split <;> rfl

/-- Writing raises the highest generation of the origin, if it leads above it. -/
theorem highest?_write (l : Ledger) (target : ValueId) (found : Lineage) (o : Origin) :
    (l.write target found).highest? o =
      if found.origin = o then some ((l.highest? o).elim found.generation (max found.generation))
      else l.highest? o := by
  by_cases hs : l.isStale found = true
  · have hkeep : (l.write target found).highest? o = l.highest? o := by simp [write, highest?, hs]
    rw [hkeep]
    split
    · rename_i ho
      subst ho
      unfold isStale at hs
      cases hm : l.highest? found.origin with
      | none => simp [hm] at hs
      | some m =>
          rw [hm, Option.any_some, decide_eq_true_eq] at hs
          rw [Option.elim_some, Int.max_eq_right hs]
    · rfl
  · have hins : (l.write target found).highest? o =
        if found.origin = o then some found.generation else l.highest? o := by
      simp [write, highest?, hs, Std.TreeMap.getElem?_insert]
    rw [hins]
    split
    · rename_i ho
      subst ho
      unfold isStale at hs
      cases hm : l.highest? found.origin with
      | none => rfl
      | some m =>
          rw [hm, Option.any_some, decide_eq_true_eq] at hs
          rw [Option.elim_some, Int.max_eq_left (by omega)]
    · rfl

/-- A move to a followed cell adds one writing to the history. -/
theorem Records.write_read (hr : l.Records h) (source target : ValueId) (step : GenStep) :
    ((l.read source step).2.write target (l.read source step).1).Records
      (⟨source, target, h.candidate source step⟩ :: h) where
  lineage cell := by
    rw [lineage_write, lineage_read, hr.read_fst, hr.lineage, History.lineageOf_cons]
  highest o := by
    rw [highest?_write, highest?_read, hr.read_fst, hr.highest, History.generations_cons]
    split
    · rw [List.max?_cons]
    · rfl
  fresh := by
    rw [History.unknowns_cons, ← hr.fresh]
    exact nextFresh_read l source step
  numbered := hr.numbered.cons source target step

/-- The generation of something unknown never repeats another one. -/
theorem Records.not_isStale_blank (hr : l.Records h) (step : GenStep) :
    l.isStale (h.candidate .blank step) = false := by
  rw [Bool.eq_false_iff]
  intro hs
  obtain ⟨w, hw, ho, -⟩ := (hr.isStale_iff _).mp hs
  exact Nat.lt_irrefl _ (hr.numbered w hw _ ho)

/-- A move is reported exactly if it repeats a generation. -/
theorem Records.move (hr : l.Records h) (source target : ValueId) (step : GenStep)
    (point : PointId) :
    (l.move source target step point).2.Records (h.extend ⟨point, .move source target step⟩) ∧
      ∀ c, (l.move source target step point).1 = some c ↔
        h.Repeats ⟨point, .move source target step⟩ c := by
  unfold Ledger.move History.extend
  by_cases ht : target.isBlank = true
  · simp only [ht, if_true]
    refine ⟨hr, fun c => ⟨fun hc => (by cases hc), ?_⟩⟩
    rintro ⟨_, _, hop, -, hne, -⟩
    cases hop
    exact absurd (ValueId.isBlank_iff.mp ht) hne
  · simp only [ht, Bool.false_eq_true, if_false]
    refine ⟨hr.write_read source target step, fun c => ?_⟩
    have hstale : (l.read source step).2.isStale (l.read source step).1 =
        l.isStale (h.candidate source step) := by
      unfold isStale
      rw [highest?_read, hr.read_fst]
    rw [hstale, hr.read_fst]
    constructor
    · intro hc
      split at hc
      · rename_i hs
        simp only [Bool.and_eq_true, beq_iff_eq] at hs
        obtain ⟨rfl, hs⟩ := hs
        refine ⟨source, target, rfl, ?_, fun e => ht (ValueId.isBlank_iff.mpr e),
          (hr.isStale_iff _).mp hs, (Option.some.inj hc).symm⟩
        rintro rfl
        rw [hr.not_isStale_blank] at hs
        cases hs
      · cases hc
    · rintro ⟨_, _, hop, -, -, hw, rfl⟩
      cases hop
      simp [(hr.isStale_iff _).mpr hw]

/-- **One transition of a primitive trace keeps the ledger in step with the history**, and is
reported exactly if it repeats a generation. -/
theorem step_records (hr : l.Records h) {t : Transition} (ht : t.op.isPrimitive) :
    ∃ found l', l.step t = (.ok found, l') ∧ l'.Records (h.extend t) ∧
      ∀ c, found = some c ↔ h.Repeats t c := by
  obtain ⟨point, op⟩ := t
  cases op with
  | assign source target => cases ht
  | call func inputs outputs => cases ht
  | ret values =>
      refine ⟨none, l, rfl, hr, fun c => ⟨fun hc => (by cases hc), ?_⟩⟩
      rintro ⟨_, _, hop, -⟩
      cases hop
  | noop =>
      refine ⟨none, l, rfl, hr, fun c => ⟨fun hc => (by cases hc), ?_⟩⟩
      rintro ⟨_, _, hop, -⟩
      cases hop
  | move source target step =>
      obtain ⟨hrec, hiff⟩ := hr.move source target step point
      exact ⟨_, _, rfl, hrec, hiff⟩

theorem replay_cons (l : Ledger) (t : Transition) (rest : List Transition) :
    l.replay (t :: rest) = (l.step t).1 >>= fun _ => (l.step t).2.replay rest := by
  unfold replay
  rw [List.foldlM_cons]
  cases (l.step t).1 <;> rfl

/-- A primitive trace can be replayed, and the ledger goes on recording the history. -/
theorem replay_records (trace : List Transition) :
    ∀ {l : Ledger} {h : History}, l.Records h → (∀ t ∈ trace, t.op.isPrimitive) →
      ∃ l', l.replay trace = .ok l' ∧ l'.Records (trace.foldl History.extend h) := by
  induction trace with
  | nil => exact fun hr _ => ⟨_, rfl, hr⟩
  | cons t rest ih =>
      intro l h hr hp
      obtain ⟨found, l₁, hstep, hr₁, -⟩ := step_records hr (hp t List.mem_cons_self)
      obtain ⟨l', hl', hr'⟩ := ih hr₁ fun u hu => hp u (List.mem_cons_of_mem _ hu)
      refine ⟨l', ?_, hr'⟩
      rw [replay_cons, hstep]
      exact hl'

/-- The conflicts of a trace that goes on by one transition. -/
theorem conflicts_append {before : List Transition} {t : Transition} {found : Option Conflict}
    {m l' : Ledger} :
    ∀ {l : Ledger}, l.replay before = .ok m → m.step t = (.ok found, l') →
      ∃ cs, l.conflicts before = .ok cs ∧
        l.conflicts (before ++ [t]) = .ok (cs ++ found.toList) := by
  induction before with
  | nil =>
      intro l hl hstep
      cases hl
      refine ⟨[], rfl, ?_⟩
      rw [List.nil_append, conflicts_cons hstep (show l'.conflicts [] = .ok [] from rfl)]
      simp
  | cons u rest ih =>
      intro l hl hstep
      rw [replay_cons] at hl
      rcases hu : l.step u with ⟨answer, l₁⟩
      rw [hu] at hl
      cases answer with
      | error e => cases hl
      | ok first =>
          obtain ⟨cs, hcs, happ⟩ := ih hl hstep
          refine ⟨_, conflicts_cons hu hcs, ?_⟩
          rw [List.cons_append, conflicts_cons hu happ, List.append_assoc]

/-- No lineage that was written lies above the highest generation of its origin. -/
theorem Records.exists_highest? (hr : l.Records h) {w : Writing} (hw : w ∈ h) :
    ∃ g, l.highest? w.lineage.origin = some g ∧ w.lineage.generation ≤ g := by
  have hmem : w.lineage.generation ∈ h.generations w.lineage.origin :=
    History.mem_generations.mpr ⟨w, hw, rfl, rfl⟩
  rw [hr.highest]
  cases hm : (h.generations w.lineage.origin).max? with
  | none =>
      rw [List.max?_eq_none_iff] at hm
      rw [hm] at hmem
      cases hmem
  | some g => exact ⟨g, rfl, (List.max?_eq_some_iff.mp hm).2 _ hmem⟩

/-- The highest generation of an origin never goes down. -/
theorem Records.highest?_mono {l l' : Ledger} {h : History} {t : Transition} (hr : l.Records h)
    (hr' : l'.Records (h.extend t)) {o : Origin} {g : Int} (hg : l.highest? o = some g) :
    ∃ g', l'.highest? o = some g' ∧ g ≤ g' := by
  rw [hr.highest] at hg
  obtain ⟨w, hw, rfl, rfl⟩ := History.mem_generations.mp (List.max?_mem hg)
  exact hr'.exists_highest? (History.mem_extend hw t)

end Ledger

namespace History

theorem mem_foldl_extend {w : Writing} (trace : List Transition) :
    ∀ {h : History}, w ∈ h → w ∈ trace.foldl extend h := by
  induction trace with
  | nil => exact id
  | cons t rest ih => exact fun hw => ih (mem_extend hw t)

/-- A growth is in the history of every trace that goes on after it. -/
theorem growth_mem_ofTrace {pre mid : List Transition} {t : Transition} {source target : ValueId}
    (ht : t.op = .move source target .next) (htarget : target ≠ .blank) :
    ⟨source, target, (ofTrace pre).candidate source .next⟩ ∈ ofTrace (pre ++ t :: mid) := by
  have hstep : ⟨source, target, (ofTrace pre).candidate source .next⟩ ∈ (ofTrace pre).extend t := by
    rw [extend_move ht (ValueId.isBlank_eq_false_iff.mpr htarget)]
    exact List.mem_cons_self
  unfold ofTrace at hstep ⊢
  rw [List.foldl_append, List.foldl_cons]
  exact mem_foldl_extend mid hstep

/-- A second growth of the same lineage repeats the first. -/
theorem repeats_of_same_lineage {pre mid : List Transition} {first later : Transition}
    {s₁ d₁ s₂ d₂ : ValueId} (h₁ : first.op = .move s₁ d₁ .next) (h₂ : later.op = .move s₂ d₂ .next)
    (hs₁ : s₁ ≠ .blank) (hd₁ : d₁ ≠ .blank) (hs₂ : s₂ ≠ .blank) (hd₂ : d₂ ≠ .blank)
    (hsame : (ofTrace (pre ++ first :: mid)).lineageOf s₂ = (ofTrace pre).lineageOf s₁) :
    (ofTrace (pre ++ first :: mid)).Repeats later
      ⟨later.target, ((ofTrace pre).lineageOf s₁).origin, s₂⟩ := by
  have hcandidate : ∀ (h : History) {s : ValueId}, s ≠ .blank →
      h.candidate s .next = ⟨(h.lineageOf s).origin, (h.lineageOf s).generation + 1⟩ := by
    intro h s hs
    cases s with
    | blank => exact absurd rfl hs
    | tracked n => rfl
  refine ⟨s₂, d₂, h₂, hs₂, hd₂, ⟨_, growth_mem_ofTrace h₁ hd₁, ?_, ?_⟩, ?_⟩
  · rw [hcandidate _ hs₁, hcandidate _ hs₂, hsame]
  · apply Int.le_of_eq
    rw [hcandidate _ hs₁, hcandidate _ hs₂, hsame]
  · rw [hcandidate _ hs₂, hsame]

end History

/-- **A replay reports exactly the growths that do not lead above an earlier one.** After every
primitive trace, the ledger holds the lineages that were written last and the highest generation of
each origin; the next transition is reported if and only if it repeats a generation, the report
names its point, origin and source, and no highest generation goes down. Of two growths of the same
lineage the later one is reported. -/
theorem replay_conflict_iff_repeats (before : List Transition)
    (hbefore : ∀ t ∈ before, t.op.isPrimitive) :
    ∃ l cs, Ledger.empty.replay before = .ok l ∧ traceConflicts before = .ok cs ∧
      (∀ cell, l.lineage cell = (History.ofTrace before).lineageOf cell) ∧
      (∀ o, l.highest? o = ((History.ofTrace before).generations o).max?) ∧
      (∀ t, t.op.isPrimitive → ∃ found l', l.step t = (.ok found, l') ∧
        (∀ c, found = some c ↔ (History.ofTrace before).Repeats t c) ∧
        traceConflicts (before ++ [t]) = .ok (cs ++ found.toList) ∧
        ∀ o g, l.highest? o = some g → ∃ g', l'.highest? o = some g' ∧ g ≤ g') ∧
      ∀ pre first mid later s₁ d₁ s₂ d₂, before = pre ++ first :: mid →
        first.op = .move s₁ d₁ .next → later.op = .move s₂ d₂ .next →
        s₁ ≠ .blank → d₁ ≠ .blank → s₂ ≠ .blank → d₂ ≠ .blank →
        l.lineage s₂ = (History.ofTrace pre).lineageOf s₁ →
        ∃ l', l.step later = (.ok (some ⟨later.target, (l.lineage s₂).origin, s₂⟩), l') := by
  obtain ⟨l, hl, hr⟩ := Ledger.replay_records before Ledger.records_empty hbefore
  obtain ⟨_, l₀, hnoop, -⟩ := Ledger.step_records hr (t := ⟨.root, .noop⟩) rfl
  obtain ⟨cs, hcs, -⟩ := Ledger.conflicts_append hl hnoop
  refine ⟨l, cs, hl, hcs, hr.lineage, hr.highest, ?_, ?_⟩
  · intro t ht
    obtain ⟨found, l', hstep, hr', hiff⟩ := Ledger.step_records hr ht
    obtain ⟨cs', hcs', happ⟩ := Ledger.conflicts_append hl hstep
    rw [hcs] at hcs'
    cases hcs'
    exact ⟨found, l', hstep, hiff, happ, fun o g hg => hr.highest?_mono hr' hg⟩
  · intro pre first mid later s₁ d₁ s₂ d₂ hsplit h₁ h₂ hs₁ hd₁ hs₂ hd₂ hsame
    have hp : later.op.isPrimitive := by rw [h₂]; rfl
    obtain ⟨found, l', hstep, -, hiff⟩ := Ledger.step_records hr hp
    subst hsplit
    rw [hr.lineage] at hsame ⊢
    have hfound := (hiff _).mpr (History.repeats_of_same_lineage h₁ h₂ hs₁ hd₁ hs₂ hd₂ hsame)
    rw [hsame, ← hfound]
    exact ⟨l', hstep⟩

/-- The cell is grown, the result shortened again, and what is left of it grown once more. -/
theorem growth_after_shortening_reported :
    let before : List Transition :=
      [⟨⟨1⟩, .move (.tracked 0) (.tracked 1) .next⟩, ⟨⟨2⟩, .move .blank (.tracked 2) .same⟩,
        ⟨⟨3⟩, .noop⟩, ⟨⟨4⟩, .move (.tracked 1) (.tracked 3) .prev⟩]
    ∃ l, Ledger.empty.replay before = .ok l ∧
      ∃ l', l.step ⟨⟨5⟩, .move (.tracked 3) (.tracked 4) .next⟩ =
        (.ok (some ⟨⟨5⟩, .value (.tracked 0), .tracked 3⟩), l') := by
  intro before
  obtain ⟨l, cs, hl, -, hlineage, -, -, hlater⟩ :=
    replay_conflict_iff_repeats before (by decide)
  have hread : l.lineage (.tracked 3) = ⟨.value (.tracked 0), 0⟩ := by
    rw [hlineage]
    decide
  obtain ⟨l', hl'⟩ := hlater [] _ _ ⟨⟨5⟩, .move (.tracked 3) (.tracked 4) .next⟩ _ _ _ _
    rfl rfl rfl (by decide) (by decide) (by decide) (by decide) (by rw [hread]; decide)
  rw [hread] at hl'
  exact ⟨l, hl, l', hl'⟩

end SliceLineage
