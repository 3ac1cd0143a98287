import Mathlib
import SliceLineage.Proofs.Check.Mirror

/-!
# Unrelated cells do not influence each other

Divide the cells into parts that never hand content to each other. A replay of the whole trace
reports about each part what a replay of the transitions that write this part reports alone. Only
the numbers of unknown origins differ, as all parts draw them from one counter.

* `Ledger.reports`: the conflicts along a trace, each with the transition that it was found at.
* `Ledger.Agree`: two ledgers agree about corresponding cells; `Ledger.Agree.step_within` and
  `Ledger.Agree.step_elsewhere`: one transition of the part, and one of another part.
* `Ledger.Agree.reports`: the whole trace against its transitions of one part.
* `parts_independent`: the conflicts of each part, with numbers exchanged one to one.
-/

namespace SliceLineage

/-- The operation writes one of the cells. -/
def Operation.fills (op : Operation) (cells : ValueId → Bool) : Bool :=
  match op with
  | .move _ target _ => cells target
  | _ => false

/-- The origin with another number, if it is an unknown one. -/
def Origin.renumber (ρ : Nat → Nat) : Origin → Origin
  | value cell => value cell
  | fresh number => fresh (ρ number)

/-- The same conflict, with other numbers for unknown origins. -/
def Conflict.renumber (ρ : Nat → Nat) (c : Conflict) : Conflict :=
  { c with origin := c.origin.renumber ρ }

/-- The conflicts along a trace, each with the transition that it was found at. -/
def Ledger.reports (l : Ledger) :
    List Transition → Except AnalysisError (List (Transition × Conflict))
  | [] => return []
  | t :: rest => do
      let (answer, l) := l.step t
      let conflict ← answer
      let later ← l.reports rest
      return conflict.toList.map (t, ·) ++ later

/-- The same growth is reported, of corresponding origins. -/
structure Conflict.Matches (E : ValueId → ValueId → Prop) (F : Nat → Nat → Prop)
    (c₀ c : Conflict) : Prop where
  point : c₀.point = c.point
  source : c₀.source = c.source
  origin : OriginPair E F c₀.origin c.origin

/-- A followed cell of the part corresponds to itself. -/
def Within (cells : ValueId → Bool) (c d : ValueId) : Prop := c = d ∧ c ≠ .blank ∧ cells c = true

/-- The transition hands on content within the part or outside of it. -/
def Operation.Respects (op : Operation) (cells : ValueId → Bool) : Prop :=
  ∀ source target step, op = .move source target step → source ≠ .blank → target ≠ .blank →
    cells source = cells target

theorem Conflict.Matches.mono {E : ValueId → ValueId → Prop} {F F' : Nat → Nat → Prop}
    (hF : ∀ m n, F m n → F' m n) {c₀ c : Conflict} (h : Conflict.Matches E F c₀ c) :
    Conflict.Matches E F' c₀ c :=
  ⟨h.point, h.source, h.origin.mono hF⟩

section

variable {cells : ValueId → Bool} {F : Nat → Nat → Prop}

theorem within_self {c : ValueId} (hc : c ≠ .blank) (hin : cells c = true) : Within cells c c :=
  ⟨rfl, hc, hin⟩

theorem cellPairing_within (cells : ValueId → Bool) : CellPairing (Within cells) where
  unique := ⟨fun _ _ _ h h' => h.1.trans h'.1.symm, fun _ _ _ h h' => h.1.symm.trans h'.1⟩
  followed _ _ h := ⟨h.2.1, h.1 ▸ h.2.1⟩

/-- A transition that writes a followed cell of the part only reads from the part. -/
theorem copies_within {op : Operation} {source target : ValueId} {step : GenStep}
    (hop : op = .move source target step) (htarget : target ≠ .blank) (hin : cells target = true)
    (hapart : op.Respects cells) : op.Copies (Within cells) op := by
  refine ⟨source, target, source, target, step, hop, hop, within_self htarget hin, ?_⟩
  by_cases hs : source = .blank
  · exact Or.inl ⟨hs, hs⟩
  · exact Or.inr (within_self hs ((hapart source target step hop hs htarget).trans hin))

/-- A transition that does not write the part has nothing to do with it. -/
theorem avoids_within {op : Operation} (hout : op.fills cells = false)
    (hapart : op.Respects cells) : op.Avoids (Paired (flip (Within cells))) := by
  intro source target step hop hb
  have htarget : cells target = false := by rw [← hout, hop]; rfl
  constructor
  · rintro ⟨_, rfl, hs, hin⟩
    have hsame := hapart _ _ _ hop hs (ValueId.isBlank_eq_false_iff.mp hb)
    rw [hin, htarget] at hsame
    cases hsame
  · rintro ⟨_, rfl, -, hin⟩
    rw [hin] at htarget
    cases htarget

namespace History

variable {h₀ h : History} {t : Transition}

/-- What two histories report about a transition of the part is the same. -/
theorem Mirrors.matches (hm : Mirrors (Within cells) F h₀ h)
    (ht : t.op.Copies (Within cells) t.op) {c₀ c : Conflict} (hc₀ : h₀.Repeats t c₀)
    (hc : h.Repeats t c) : Conflict.Matches (Within cells) F c₀ c := by
  obtain ⟨source, target, hop, hs, -, -, rfl⟩ := hc₀
  obtain ⟨_, _, hop', -, -, -, rfl⟩ := hc
  cases hop.symm.trans hop'
  obtain ⟨_, _, _, _, _, hcopy, -, -, hsource⟩ := ht
  cases hop.symm.trans hcopy
  obtain ⟨-, -, hin⟩ := hsource.resolve_left fun hblank => hs hblank.1
  refine ⟨rfl, rfl, ?_⟩
  rw [candidate_origin h₀ hs, candidate_origin h hs]
  exact hm.origins source source (within_self hs hin)

/-- **A transition of the part** keeps the histories in step, and repeats a generation in both or in
none. -/
theorem Mirrors.extend_within (hm : Mirrors (Within cells) F h₀ h) (hin : t.op.fills cells = true)
    (hapart : t.op.Respects cells) :
    ∃ F' : Nat → Nat → Prop, (∀ m n, F m n → F' m n) ∧
      Mirrors (Within cells) F' (h₀.extend t) (h.extend t) ∧
      ((∃ c₀, h₀.Repeats t c₀) ↔ ∃ c, h.Repeats t c) ∧
      ∀ c₀ c, h₀.Repeats t c₀ → h.Repeats t c → Conflict.Matches (Within cells) F' c₀ c := by
  rcases h₀.extend_eq_or t with ⟨-, hblank⟩ | ⟨source, target, step, hop, hb⟩
  · have hnone : ∀ (h : History) c, ¬ h.Repeats t c := by
      rintro h c ⟨source, target, hop, -, htarget, -⟩
      exact htarget (hblank source target .next hop)
    have havoids : ∀ others, t.op.Avoids others := by
      intro others source target step hop hb
      exact absurd (hblank source target step hop) (ValueId.isBlank_eq_false_iff.mp hb)
    refine ⟨F, fun _ _ hF => hF, (hm.extend_left (havoids _)).extend_right (havoids _), ?_,
      fun c₀ c hc₀ => absurd hc₀ (hnone h₀ c₀)⟩
    exact iff_of_false (fun ⟨c₀, hc₀⟩ => hnone h₀ c₀ hc₀) (fun ⟨c, hc⟩ => hnone h c hc)
  · have hcell : cells target = true := by rw [← hin, hop]; rfl
    have hcopy := copies_within hop (ValueId.isBlank_eq_false_iff.mp hb) hcell hapart
    have hE := cellPairing_within cells
    obtain ⟨F', hF, hm'⟩ := hm.extend_both hE hcopy
    exact ⟨F', hF, hm', ⟨hm.exists_repeats hE hcopy, hm.symm.exists_repeats hE.symm hcopy.symm⟩,
      fun c₀ c hc₀ hc => (hm.matches hcopy hc₀ hc).mono hF⟩

end History

namespace Ledger

theorem reports_cons {l l' : Ledger} {t : Transition} {rest : List Transition}
    {found : Option Conflict} {later : List (Transition × Conflict)}
    (hstep : l.step t = (.ok found, l')) (hlater : l'.reports rest = .ok later) :
    l.reports (t :: rest) = .ok (found.toList.map (t, ·) ++ later) := by
  rw [reports, hstep]
  simp [hlater, bind, Except.bind, pure, Except.pure]

theorem reports_cons_eq_ok {l : Ledger} {t : Transition} {rest : List Transition}
    {found : List (Transition × Conflict)} (h : l.reports (t :: rest) = .ok found) :
    ∃ conflict l' later, l.step t = (.ok conflict, l') ∧ l'.reports rest = .ok later ∧
      found = conflict.toList.map (t, ·) ++ later := by
  rcases hstep : l.step t with ⟨answer, l'⟩
  cases answer with
  | error e => simp [reports, hstep, bind, Except.bind] at h
  | ok conflict =>
      cases hlater : l'.reports rest with
      | error e => simp [reports, hstep, hlater, bind, Except.bind] at h
      | ok later =>
          rw [reports_cons hstep hlater] at h
          cases h
          exact ⟨conflict, l', later, rfl, hlater, rfl⟩

/-- The reports of a trace are its conflicts. -/
theorem conflicts_eq_map_reports (trace : List Transition) :
    ∀ {l : Ledger} {found : List (Transition × Conflict)}, l.reports trace = .ok found →
      l.conflicts trace = .ok (found.map Prod.snd) := by
  induction trace with
  | nil =>
      intro l found hfound
      cases hfound
      rfl
  | cons t rest ih =>
      intro l found hfound
      obtain ⟨conflict, l', later, hstep, hlater, rfl⟩ := reports_cons_eq_ok hfound
      rw [conflicts_cons hstep (ih hlater)]
      simp

/-- The reports about some cells, where one more transition comes first. -/
theorem filter_reports_cons (cells : ValueId → Bool) (t : Transition) (found : Option Conflict)
    (later : List (Transition × Conflict)) :
    ((found.toList.map (t, ·) ++ later).filter (·.1.op.fills cells)).map Prod.snd =
      (if t.op.fills cells then found.toList else []) ++
        (later.filter (·.1.op.fills cells)).map Prod.snd := by
  cases hin : t.op.fills cells <;> cases found <;> simp [hin]

theorem move_of_step_some {l l' : Ledger} {t : Transition} {c : Conflict}
    (hstep : l.step t = (.ok (some c), l')) :
    ∃ source target step, t.op = .move source target step := by
  obtain ⟨point, op⟩ := t
  cases op with
  | move source target step => exact ⟨source, target, step, rfl⟩
  | noop => cases hstep
  | ret values => cases hstep
  | assign source target => cases hstep
  | call func inputs outputs => cases hstep

/-- Only moves of the trace are reported. -/
theorem move_of_mem_reports {r : Transition × Conflict} (trace : List Transition) :
    ∀ {l : Ledger} {found : List (Transition × Conflict)}, l.reports trace = .ok found → r ∈ found →
      r.1 ∈ trace ∧ ∃ source target step, r.1.op = .move source target step := by
  induction trace with
  | nil =>
      intro l found hfound hr
      cases hfound
      cases hr
  | cons t rest ih =>
      intro l found hfound hr
      obtain ⟨conflict, l', later, hstep, hlater, rfl⟩ := reports_cons_eq_ok hfound
      rcases List.mem_append.mp hr with hr | hr
      · obtain ⟨c, hc, rfl⟩ := List.mem_map.mp hr
        rw [Option.mem_toList] at hc
        subst hc
        exact ⟨List.mem_cons_self, move_of_step_some hstep⟩
      · obtain ⟨hmem, hmove⟩ := ih hlater hr
        exact ⟨List.mem_cons_of_mem _ hmem, hmove⟩

/-- The ledgers agree about corresponding cells. -/
def Agree (E : ValueId → ValueId → Prop) (F : Nat → Nat → Prop) (l₀ l : Ledger) : Prop :=
  ∃ h₀ h, l₀.Records h₀ ∧ l.Records h ∧ h₀.Mirrors E F h

theorem agree_empty (E : ValueId → ValueId → Prop) : Agree E (fun _ _ => False) empty empty :=
  ⟨[], [], records_empty, records_empty, History.mirrors_nil E⟩

variable {l₀ l : Ledger} {t : Transition}

/-- A transition of the part is reported by both ledgers or by none. -/
theorem Agree.step_within (ha : Agree (Within cells) F l₀ l) (hprim : t.op.isPrimitive)
    (hin : t.op.fills cells = true) (hapart : t.op.Respects cells) :
    ∃ F' found₀ found l₀' l', (∀ m n, F m n → F' m n) ∧ l₀.step t = (.ok found₀, l₀') ∧
      l.step t = (.ok found, l') ∧ Agree (Within cells) F' l₀' l' ∧
      List.Forall₂ (Conflict.Matches (Within cells) F') found₀.toList found.toList := by
  obtain ⟨h₀, h, hr₀, hr, hm⟩ := ha
  obtain ⟨found₀, l₀', hstep₀, hr₀', hreport₀⟩ := step_records hr₀ hprim
  obtain ⟨found, l', hstep, hr', hreport⟩ := step_records hr hprim
  obtain ⟨F', hF, hm', hboth, hmatches⟩ := hm.extend_within hin hapart
  refine ⟨F', found₀, found, l₀', l', hF, hstep₀, hstep, ⟨_, _, hr₀', hr', hm'⟩, ?_⟩
  simp only [← hreport₀, ← hreport] at hboth hmatches
  cases found₀ with
  | none =>
      cases found with
      | none => exact .nil
      | some c =>
          obtain ⟨c₀, hc₀⟩ := hboth.mpr ⟨c, rfl⟩
          cases hc₀
  | some c₀ =>
      obtain ⟨c, rfl⟩ := hboth.mp ⟨c₀, rfl⟩
      exact .cons (hmatches c₀ c rfl rfl) .nil

/-- A transition that does not write the part makes no difference to it. -/
theorem Agree.step_elsewhere (ha : Agree (Within cells) F l₀ l) (hprim : t.op.isPrimitive)
    (hout : t.op.fills cells = false) (hapart : t.op.Respects cells) :
    ∃ found l', l.step t = (.ok found, l') ∧ Agree (Within cells) F l₀ l' := by
  obtain ⟨h₀, h, hr₀, hr, hm⟩ := ha
  obtain ⟨found, l', hstep, hr', -⟩ := step_records hr hprim
  exact ⟨found, l', hstep, h₀, _, hr₀, hr', hm.extend_right (avoids_within hout hapart)⟩

/-- **The reports about the part are the conflicts of its transitions alone.** The numbers of
unknown origins that correspond grow along the trace. -/
theorem Agree.reports (trace : List Transition) :
    ∀ {F : Nat → Nat → Prop} {l₀ l : Ledger}, Agree (Within cells) F l₀ l →
      (∀ t ∈ trace, t.op.isPrimitive) → (∀ t ∈ trace, t.op.Respects cells) →
      ∃ F' found alone l₀' l', (∀ m n, F m n → F' m n) ∧ Agree (Within cells) F' l₀' l' ∧
        l.reports trace = .ok found ∧ l₀.conflicts (trace.filter (·.op.fills cells)) = .ok alone ∧
        List.Forall₂ (Conflict.Matches (Within cells) F') alone
          ((found.filter (·.1.op.fills cells)).map Prod.snd) := by
  induction trace with
  | nil => exact fun {F l₀ l} ha _ _ => ⟨F, [], [], l₀, l, fun _ _ hF => hF, ha, rfl, rfl, .nil⟩
  | cons t rest ih =>
      intro F l₀ l ha hprim hapart
      have hprim' : ∀ u ∈ rest, u.op.isPrimitive := fun u hu => hprim u (List.mem_cons_of_mem _ hu)
      have hapart' : ∀ u ∈ rest, u.op.Respects cells :=
        fun u hu => hapart u (List.mem_cons_of_mem _ hu)
      have hp := hprim t List.mem_cons_self
      have hr := hapart t List.mem_cons_self
      cases hin : t.op.fills cells with
      | true =>
          obtain ⟨F₁, found₀, found₁, m₀, m, hF₁, hstep₀, hstep, ha₁, hhead⟩ :=
            ha.step_within hp hin hr
          obtain ⟨F', found, alone, l₀', l', hF', ha', hfound, halone, htail⟩ :=
            ih ha₁ hprim' hapart'
          refine ⟨F', _, found₀.toList ++ alone, l₀', l', fun a b h => hF' a b (hF₁ a b h), ha',
            reports_cons hstep hfound, ?_, ?_⟩
          · rw [List.filter_cons, if_pos hin]
            exact conflicts_cons hstep₀ halone
          · rw [filter_reports_cons, if_pos hin]
            exact List.rel_append (hhead.imp fun _ _ h => h.mono hF') htail
      | false =>
          obtain ⟨found₁, m, hstep, ha₁⟩ := ha.step_elsewhere hp hin hr
          obtain ⟨F', found, alone, l₀', l', hF', ha', hfound, halone, htail⟩ :=
            ih ha₁ hprim' hapart'
          refine ⟨F', _, alone, l₀', l', hF', ha', reports_cons hstep hfound, ?_, ?_⟩
          · rw [List.filter_cons, hin]
            exact halone
          · rw [filter_reports_cons, hin]
            exact htail

end Ledger

/-! ## Renumbering -/

/-- Numbers that correspond at most one to one, and are bounded, can be exchanged one to one. -/
theorem exists_renumbering (hF : Relator.BiUnique F) {bound : Nat}
    (hbound : ∀ m n, F m n → n < bound) :
    ∃ ρ : Nat → Nat, Function.Injective ρ ∧ ∀ m n, F m n → ρ m = n := by
  classical
  -- numbers without a partner go behind all those that have one
  have hchoice : ∀ m, ∃ n, F m n ∨ (∀ k, ¬ F m k) ∧ n = bound + m := by
    intro m
    by_cases hm : ∃ n, F m n
    · exact ⟨hm.choose, Or.inl hm.choose_spec⟩
    · exact ⟨bound + m, Or.inr ⟨not_exists.mp hm, rfl⟩⟩
  choose ρ hρ using hchoice
  refine ⟨ρ, fun m m' hsame => ?_, fun m n hmn => ?_⟩
  · rcases hρ m with hm | ⟨-, hm⟩ <;> rcases hρ m' with hm' | ⟨-, hm'⟩
    · exact hF.1 hm (hsame ▸ hm')
    · have := hbound _ _ hm
      omega
    · have := hbound _ _ hm'
      omega
    · omega
  · rcases hρ m with hm | ⟨hnone, -⟩
    · exact hF.2 hm hmn
    · exact absurd hmn (hnone n)

theorem Conflict.Matches.eq_renumber {ρ : Nat → Nat} (hρ : ∀ m n, F m n → ρ m = n)
    {c₀ c : Conflict} (h : Conflict.Matches (Within cells) F c₀ c) : c = c₀.renumber ρ := by
  obtain ⟨point₀, origin₀, source₀⟩ := c₀
  obtain ⟨point, origin, source⟩ := c
  obtain ⟨rfl, rfl, horigin⟩ := h
  cases horigin with
  | value hcell => rw [hcell.1]; rfl
  | fresh hnumber => rw [← hρ _ _ hnumber]; rfl

/-- The reports of a whole trace about some cells, against the replay of the transitions that write
them. -/
theorem Ledger.reports_within {trace : List Transition} (hprim : ∀ t ∈ trace, t.op.isPrimitive)
    (hapart : ∀ t ∈ trace, t.op.Respects cells) :
    ∃ found alone ρ, empty.reports trace = .ok found ∧
      traceConflicts (trace.filter (·.op.fills cells)) = .ok alone ∧ Function.Injective ρ ∧
      (found.filter (·.1.op.fills cells)).map Prod.snd = alone.map (Conflict.renumber ρ) := by
  obtain ⟨F, found, alone, l₀, l, -, ⟨h₀, h, -, -, hm⟩, hfound, halone, hmatches⟩ :=
    (agree_empty (Within cells)).reports trace hprim hapart
  obtain ⟨ρ, hinj, hρ⟩ := exists_renumbering hm.unique fun m n hmn => (hm.bounds m n hmn).2
  refine ⟨found, alone, ρ, hfound, halone, hinj, ?_⟩
  have hequal : List.Forall₂ (fun c₀ c => c₀.renumber ρ = c) alone
      ((found.filter (·.1.op.fills cells)).map Prod.snd) :=
    hmatches.imp fun _ _ hc => (hc.eq_renumber hρ).symm
  exact (List.forall₂_eq_eq_eq ▸ List.forall₂_map_left_iff.mpr hequal).symm

end

/-- **Unrelated cells do not influence each other.** Let the cells be divided into parts, such that
no move of a primitive trace leads from a cell of one part to a cell of another. Then the trace can
be replayed, each conflict is found at a move that writes one of the parts, and the conflicts
found at moves that write a part are, in order, those of the moves that write this part, replayed
alone: at the same points and from the same cells, with the numbers of unknown origins exchanged one
to one. -/
theorem parts_independent {ι : Type} [DecidableEq ι] (part : ValueId → ι) (trace : List Transition)
    (hprim : ∀ t ∈ trace, t.op.isPrimitive)
    (hapart : ∀ t ∈ trace, ∀ source target step, t.op = .move source target step →
      source ≠ .blank → target ≠ .blank → part source = part target) :
    ∃ found, Ledger.empty.reports trace = .ok found ∧
      traceConflicts trace = .ok (found.map Prod.snd) ∧
      (∀ r ∈ found, r.1 ∈ trace ∧ ∃ i, r.1.op.fills (part · == i)) ∧
      ∀ i, ∃ alone ρ, traceConflicts (trace.filter (·.op.fills (part · == i))) = .ok alone ∧
        Function.Injective ρ ∧
        (found.filter (·.1.op.fills (part · == i))).map Prod.snd =
          alone.map (Conflict.renumber ρ) := by
  have hrespects : ∀ i, ∀ t ∈ trace, t.op.Respects (part · == i) := by
    intro i t ht source target step hop hs hd
    exact congrArg (· == i) (hapart t ht source target step hop hs hd)
  obtain ⟨found, -, -, hfound, -⟩ := Ledger.reports_within hprim (hrespects (part .blank))
  refine ⟨found, hfound, Ledger.conflicts_eq_map_reports trace hfound, fun r hr => ?_, fun i => ?_⟩
  · obtain ⟨hmem, source, target, step, hop⟩ := Ledger.move_of_mem_reports trace hfound hr
    exact ⟨hmem, part target, by simp [hop, Operation.fills]⟩
  · obtain ⟨found', alone, ρ, hfound', halone, hinj, hequal⟩ :=
      Ledger.reports_within hprim (hrespects i)
    rw [hfound] at hfound'
    cases hfound'
    exact ⟨alone, ρ, halone, hinj, hequal⟩

/-- Two slices of unknown origin are grown in turns, each of them twice from its first cell. -/
def grownInTurns : List Transition :=
  [⟨⟨1⟩, .move .blank (.tracked 0) .same⟩, ⟨⟨2⟩, .move .blank (.tracked 1) .same⟩,
    ⟨⟨3⟩, .move (.tracked 0) (.tracked 2) .next⟩, ⟨⟨4⟩, .move (.tracked 1) (.tracked 3) .next⟩,
    ⟨⟨5⟩, .move (.tracked 1) .blank .next⟩, ⟨⟨6⟩, .move (.tracked 1) (.tracked 5) .next⟩,
    ⟨⟨7⟩, .move (.tracked 0) (.tracked 4) .next⟩, ⟨⟨8⟩, .ret [.tracked 4, .tracked 5]⟩]

/-- The even cells and the odd ones. -/
theorem grownInTurns_independent :
    traceConflicts grownInTurns =
        .ok [⟨⟨6⟩, .fresh 1, .tracked 1⟩, ⟨⟨7⟩, .fresh 0, .tracked 0⟩] ∧
      traceConflicts (grownInTurns.filter (·.op.fills (·.rank % 2 == 0))) =
        .ok [⟨⟨6⟩, .fresh 0, .tracked 1⟩] ∧
      ∃ ρ, Function.Injective ρ ∧
        [⟨⟨6⟩, .fresh 1, .tracked 1⟩] =
          [(⟨⟨6⟩, .fresh 0, .tracked 1⟩ : Conflict)].map (Conflict.renumber ρ) := by
  have hfound : Ledger.empty.reports grownInTurns = .ok
      [(⟨⟨6⟩, .move (.tracked 1) (.tracked 5) .next⟩, ⟨⟨6⟩, .fresh 1, .tracked 1⟩),
        (⟨⟨7⟩, .move (.tracked 0) (.tracked 4) .next⟩, ⟨⟨7⟩, .fresh 0, .tracked 0⟩)] := by
    rfl
  have halone : traceConflicts (grownInTurns.filter (·.op.fills (·.rank % 2 == 0))) =
      .ok [⟨⟨6⟩, .fresh 0, .tracked 1⟩] := by
    rfl
  have hapart : ∀ t ∈ grownInTurns, ∀ source target step, t.op = .move source target step →
      source ≠ .blank → target ≠ .blank → source.rank % 2 = target.rank % 2 := by
    intro t ht source target step hop
    simp only [grownInTurns, List.mem_cons, List.not_mem_nil, or_false] at ht
    rcases ht with rfl | rfl | rfl | rfl | rfl | rfl | rfl | rfl <;> cases hop <;> decide
  obtain ⟨found, hreports, hconflicts, -, hparts⟩ :=
    parts_independent (fun c => c.rank % 2) grownInTurns (by decide) hapart
  rw [hfound] at hreports
  cases hreports
  obtain ⟨alone, ρ, hpart, hinj, hequal⟩ := hparts 0
  rw [halone] at hpart
  cases hpart
  exact ⟨hconflicts, halone, ρ, hinj, hequal⟩

end SliceLineage
