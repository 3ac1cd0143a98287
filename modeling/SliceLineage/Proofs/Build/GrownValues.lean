import Mathlib
import SliceLineage.Proofs.Build.Advance
import SliceLineage.Proofs.Check.Growths
import SliceLineage.Proofs.Summary.Registration

/-!
# The values that evaluation grows

If the first argument of a growth is a bounded slice expression, the value that is grown is the
output of the slice expression. It is new, no name ever has it, and nothing else stores anything in
it, since the walk over the expression uses the output once.

* `Operation.written`, `Operation.grown`: the values that an operation stores something in, and the
  values that it grows.
* `BuildState.Detached`: only bounded slice expressions store something in the values that are
  grown, and no name has such a value.
* `BuildState.Since`: what lies between two states if only expressions were evaluated.
* `Build.settlesLogic`: the rules by which evaluation keeps the state detached and stores only in
  new values.
-/

namespace SliceLineage

/-- The first argument of each growth is a bounded slice expression, unless `append` is hidden by a
declaration. -/
def BoundsGrowths (hidden : Bool) (growths : List (List Expr)) : Prop :=
  hidden = false → ∀ args ∈ growths, ∀ e ∈ args.head?, e.isBounded = true

namespace BoundsGrowths

variable {hidden : Bool} {first second : List (List Expr)}

theorem left (h : BoundsGrowths hidden (first ++ second)) : BoundsGrowths hidden first :=
  fun hshown args hargs => h hshown args (List.mem_append_left _ hargs)

theorem right (h : BoundsGrowths hidden (first ++ second)) : BoundsGrowths hidden second :=
  fun hshown args hargs => h hshown args (List.mem_append_right _ hargs)

end BoundsGrowths

theorem Registry.eq_appendName_of_lookup? {name : String} {func : FuncId}
    (h : builtin.lookup? name = some func) (hfunc : builtin.append? = some func) :
    name = appendName := by
  obtain ⟨s, hs, hname⟩ := (Consistent.builtin.index _ _).mp h
  obtain ⟨t, ht, happend⟩ := (Consistent.builtin.index _ _).mp hfunc
  obtain rfl := Option.some.inj (hs.symm.trans ht)
  exact hname.symm.trans happend

/-! ## Values of operations -/

namespace Operation

/-- The values that the operation stores something in. -/
def written : Operation → List ValueId
  | assign _ target => [target.value]
  | call _ _ outputs => outputs
  | ret _ | noop | move .. => []

/-- The followed values that the operation grows. -/
def grown : Operation → List ValueId
  | call func (c :: _) _ => if Registry.builtin.append? = some func then c.followed else []
  | _ => []

/-- The operation is a bounded slice expression. -/
def isSlicing : Operation → Bool
  | call func _ _ => Registry.builtin.slice? == some func
  | _ => false

theorem mem_grown_call {func : FuncId} {inputs : List Composition} {outputs : List ValueId}
    {v : ValueId} (h : v ∈ (call func inputs outputs).grown) :
    Registry.builtin.append? = some func ∧ ∃ c ∈ inputs.head?, v ∈ c.followed := by
  cases inputs with
  | nil => cases h
  | cons c rest =>
      simp only [grown] at h
      split at h
      · rename_i hfunc
        exact ⟨hfunc, c, rfl, h⟩
      · cases h

end Operation

namespace ValueId

/-- The value was not yet handed out when the supply came to `n`. -/
def From (n : Nat) (v : ValueId) : Prop := ∃ i, v = tracked i ∧ n ≤ i

/-- Only bounded slice expressions store something in the value. -/
def Sliced (ops : List Operation) (v : ValueId) : Prop :=
  ∀ op ∈ ops, v ∈ op.written → op.isSlicing = true

/-- The value was handed out and is not grown. -/
def Free (n : Nat) (ops : List Operation) (v : ValueId) : Prop :=
  v.Below n ∧ ∀ op ∈ ops, v ∉ op.grown

variable {n n' : Nat} {ops more : List Operation} {v : ValueId}

theorem From.not_below (h : v.From n) : ¬ v.Below n := by
  obtain ⟨i, rfl, hle⟩ := h
  exact fun hbelow => Nat.not_lt_of_le hle (hbelow i rfl)

theorem From.mono (h : v.From n') (hn : n ≤ n') : v.From n := by
  obtain ⟨i, rfl, hle⟩ := h
  exact ⟨i, rfl, Nat.le_trans hn hle⟩

theorem Sliced.append (h : v.Sliced ops) (hmore : ∀ op ∈ more, v ∈ op.written → op.isSlicing) :
    v.Sliced (ops ++ more) := by
  intro op hop
  rcases List.mem_append.mp hop with hop | hop
  · exact h op hop
  · exact hmore op hop

theorem Free.append (h : v.Free n ops) (hn : n ≤ n') (hmore : ∀ op ∈ more, v ∉ op.grown) :
    v.Free n' (ops ++ more) := by
  refine ⟨h.1.mono hn, fun op hop => ?_⟩
  rcases List.mem_append.mp hop with hop | hop
  · exact h.2 op hop
  · exact hmore op hop

end ValueId

/-! ## Detached states -/

/-- The recorded operations use values that were handed out. Only bounded slice expressions store
something in the values that are grown, and no name has such a value. -/
structure BuildState.Detached (s : BuildState) (ops : List Operation) : Prop where
  records : s.cursor.graph.Records ops
  written : ∀ op ∈ ops, ∀ v ∈ op.written, v.Below s.scopes.allocated
  grown : ∀ op ∈ ops, ∀ v ∈ op.grown, v.Below s.scopes.allocated ∧ v.Sliced ops
  names : ∀ b ∈ s.scopes.frames.flatten, b.2.Free s.scopes.allocated ops

namespace BuildState

/-- A state that is detached with all that its graph records. -/
def Settled (s : BuildState) : Prop := s.Detached s.cursor.graph.history

/-- The value is not grown by anything that the graph records. -/
def Frees (s : BuildState) (v : ValueId) : Prop :=
  v.Free s.scopes.allocated s.cursor.graph.history

theorem Detached.settled {s : BuildState} {ops : List Operation} (h : s.Detached ops) :
    s.Settled := by
  unfold Settled
  rwa [h.records.history_eq]

/-- Between the two states only expressions were evaluated: the names are the same, and what was
recorded stores something only in values that are new, and grows no others. -/
structure Since (b s : BuildState) : Prop where
  frames : s.scopes.frames = b.scopes.frames
  supply : b.scopes.allocated ≤ s.scopes.allocated
  settled : b.Settled → s.Settled
  recent : ∃ more, s.cursor.graph.history = b.cursor.graph.history ++ more ∧
    ∀ op ∈ more, ∀ v, v ∈ op.written ∨ v ∈ op.grown → v.From b.scopes.allocated

/-- What is known in the state `s` about the values of an expression whose evaluation began in the
state `b`: they are not grown, and those of a bounded slice expression are new and nothing else
stores something in them. -/
def Holds (b : BuildState) (bounded : Bool) (s : BuildState) (v : ValueId) : Prop :=
  s.Frees v ∧ (bounded = true → v.From b.scopes.allocated ∧ v.Sliced s.cursor.graph.history)

variable {b b' s s' : BuildState} {bounded : Bool} {v : ValueId}

theorem Since.refl (s : BuildState) : s.Since s := ⟨rfl, Nat.le_refl _, id, [], by simp, by simp⟩

theorem Since.trans (h : b.Since s) (h' : s.Since s') : b.Since s' where
  frames := h'.frames.trans h.frames
  supply := Nat.le_trans h.supply h'.supply
  settled hb := h'.settled (h.settled hb)
  recent := by
    obtain ⟨more, hmore, hnew⟩ := h.recent
    obtain ⟨more', hmore', hnew'⟩ := h'.recent
    refine ⟨more ++ more', by rw [hmore', hmore, List.append_assoc], fun op hop v hv => ?_⟩
    rcases List.mem_append.mp hop with hop | hop
    · exact hnew op hop v hv
    · exact (hnew' op hop v hv).mono h.supply

theorem Since.isSome_lookup? (h : b.Since s) (name : String) :
    (s.scopes.lookup? name).isSome = (b.scopes.lookup? name).isSome := by
  rw [Scopes.lookup?, Scopes.lookup?, h.frames]

/-- What is held goes on being so, since what is recorded later uses new values only. -/
theorem Holds.later (h : b.Holds bounded s v) (hs : s.Since s') : b.Holds bounded s' v := by
  obtain ⟨more, hmore, hnew⟩ := hs.recent
  refine ⟨?_, fun hbounded => ⟨(h.2 hbounded).1, ?_⟩⟩
  · unfold Frees
    rw [hmore]
    exact h.1.append hs.supply fun op hop hgrown => (hnew op hop v (Or.inr hgrown)).not_below h.1.1
  · rw [hmore]
    exact (h.2 hbounded).2.append fun op hop hwritten =>
      absurd h.1.1 (hnew op hop v (Or.inl hwritten)).not_below

theorem Holds.earlier (h : b.Holds bounded s v) (hb : b'.Since b) : b'.Holds bounded s v :=
  ⟨h.1, fun hbounded => ⟨(h.2 hbounded).1.mono hb.supply, (h.2 hbounded).2⟩⟩

theorem Holds.plain (h : b.Holds bounded s v) : b.Holds false s v :=
  ⟨h.1, fun hfalse => by cases hfalse⟩

/-- The values of names are not grown. -/
theorem Settled.holds_lookup (hs : s.Settled) (b : BuildState) {name : String}
    (hblank : s.scopes.lookup name ≠ .blank) : b.Holds false s (s.scopes.lookup name) := by
  refine ⟨?_, fun hfalse => by cases hfalse⟩
  unfold Scopes.lookup at hblank ⊢
  cases hfound : s.scopes.lookup? name with
  | none =>
      rw [hfound] at hblank
      exact absurd rfl hblank
  | some v =>
      rw [hfound] at hblank
      have hname : name ≠ Scopes.blankName := by
        rintro rfl
        cases hfound
        exact hblank rfl
      exact hs.names _ (Scopes.mem_flatten_of_lookup? hname hfound)

/-- The operation, which gets the next `count` values, stores something only in these, and grows
only what bounded slice expressions left since the state `b`. -/
structure Permits (b s : BuildState) (op : Operation) (count : Nat) : Prop where
  written : ∀ v ∈ op.written, v.From s.scopes.allocated ∧ v.Below (s.scopes.allocated + count)
  grown : ∀ v ∈ op.grown, v.From b.scopes.allocated ∧ v.Below s.scopes.allocated ∧
    v.Sliced s.cursor.graph.history

/-- The state after an operation that gets the next `count` values. -/
abbrev record (s : BuildState) (op : Operation) (span : Span) (count : Nat) : BuildState where
  cursor := s.cursor.append op (some span)
  scopes := { s.scopes with allocated := s.scopes.allocated + count }

namespace Permits

variable {op : Operation} {count : Nat}

/-- An old value is as sliced as it was. -/
theorem sliced (h : b.Permits s op count) (hbelow : v.Below s.scopes.allocated)
    (hsliced : v.Sliced s.cursor.graph.history) : v.Sliced (s.cursor.graph.history ++ [op]) := by
  refine hsliced.append fun op' hop hv => ?_
  rw [List.mem_singleton.mp hop] at hv
  exact absurd hbelow (h.written v hv).1.not_below

theorem detached (h : b.Permits s op count) (hb : b.Settled) (hs : b.Since s)
    (hnoop : op.isNoop = false) (span : Span) :
    (s.record op span count).Detached (s.cursor.graph.history ++ [op]) := by
  have hsettled := hs.settled hb
  have hle : s.scopes.allocated ≤ s.scopes.allocated + count := Nat.le_add_right _ _
  have hrecords := Cursor.records_append hsettled.records op (some span)
  rw [hnoop, if_neg Bool.false_ne_true] at hrecords
  refine ⟨hrecords, fun op' hop v hv => ?_, fun op' hop v hv => ?_, fun d hd => ?_⟩
  · rcases List.mem_append.mp hop with hop | hop
    · exact (hsettled.written op' hop v hv).mono hle
    · rw [List.mem_singleton.mp hop] at hv
      exact (h.written v hv).2
  · rcases List.mem_append.mp hop with hop | hop
    · obtain ⟨hbelow, hsliced⟩ := hsettled.grown op' hop v hv
      exact ⟨hbelow.mono hle, h.sliced hbelow hsliced⟩
    · rw [List.mem_singleton.mp hop] at hv
      obtain ⟨-, hbelow, hsliced⟩ := h.grown v hv
      exact ⟨hbelow.mono hle, h.sliced hbelow hsliced⟩
  · -- names are older than what is grown
    refine (hsettled.names d hd).append hle fun op' hop hv => ?_
    rw [List.mem_singleton.mp hop] at hv
    have hnamed : d ∈ b.scopes.frames.flatten := hs.frames ▸ hd
    exact (h.grown d.2 hv).1.not_below (hb.names d hnamed).1

theorem since (h : b.Permits s op count) (hb : b.Settled) (hs : b.Since s)
    (hnoop : op.isNoop = false) (span : Span) : b.Since (s.record op span count) := by
  have hdetached := h.detached hb hs hnoop span
  obtain ⟨more, hmore, hrecent⟩ := hs.recent
  refine ⟨hs.frames, Nat.le_trans hs.supply (Nat.le_add_right _ _), fun _ => hdetached.settled,
    more ++ [op], ?_, fun op' hop v hv => ?_⟩
  · rw [hdetached.records.history_eq, hmore, List.append_assoc]
  · rcases List.mem_append.mp hop with hop | hop
    · exact hrecent op' hop v hv
    · rw [List.mem_singleton.mp hop] at hv
      exact hv.elim (fun hv => (h.written v hv).1.mono hs.supply) fun hv => (h.grown v hv).1

/-- A new value is not grown yet, and nothing else stores something in it. -/
theorem holds (h : b.Permits s op count) (hb : b.Settled) (hs : b.Since s)
    (hnoop : op.isNoop = false) (span : Span) (hslicing : bounded = true → op.isSlicing = true)
    (hv : v ∈ op.written) : b.Holds bounded (s.record op span count) v := by
  have hsettled := hs.settled hb
  obtain ⟨hnew, hbelow⟩ := h.written v hv
  unfold Holds Frees
  rw [(h.detached hb hs hnoop span).records.history_eq]
  refine ⟨⟨hbelow, fun op' hop hgrown => ?_⟩, fun hbounded =>
    ⟨hnew.mono hs.supply, fun op' hop hwritten => ?_⟩⟩
  · rcases List.mem_append.mp hop with hop | hop
    · exact hnew.not_below (hsettled.grown op' hop v hgrown).1
    · rw [List.mem_singleton.mp hop] at hgrown
      exact hnew.not_below (h.grown v hgrown).2.1
  · rcases List.mem_append.mp hop with hop | hop
    · exact absurd (hsettled.written op' hop v hwritten) hnew.not_below
    · rw [List.mem_singleton.mp hop]
      exact hslicing hbounded

end Permits

end BuildState

/-! ## Evaluation -/

namespace Build

variable {b s s' : BuildState}

/-- A function that is called under the name of `append` is the growth of slices, and the name is
not hidden. -/
theorem append_of_func? {callee : Expr} {f : FuncId}
    (hf : callee.name?.bind (s.scopes.func? .builtin) = some f)
    (happend : Registry.builtin.append? = some f) :
    callee.name? = some Registry.appendName ∧
      (s.scopes.lookup? Registry.appendName).isSome = false := by
  obtain ⟨name, hname, hfunc⟩ := Option.bind_eq_some_iff.mp hf
  unfold Scopes.func? at hfunc
  split at hfunc
  · cases hfunc
  · rename_i hshown
    obtain rfl := Registry.eq_appendName_of_lookup? hfunc happend
    exact ⟨hname, by simpa using hshown⟩

/-- The outputs of a call are new. -/
theorem new_of_mem_outputs {n count : Nat} {v : ValueId}
    (hv : v ∈ (List.range' n count).map ValueId.tracked) : v.From n ∧ v.Below (n + count) := by
  obtain ⟨i, hi, rfl⟩ := List.mem_map.mp hv
  obtain ⟨hlo, hhi⟩ := List.mem_range'_1.mp hi
  refine ⟨⟨i, rfl, hlo⟩, fun j hj => ?_⟩
  obtain rfl := ValueId.tracked.inj hj
  exact hhi

/-- **A modelled call keeps the state detached**, if it grows nothing or what a bounded slice
expression left. -/
theorem since_callModelled (hb : b.Settled) (hs : b.Since s) {func : FuncId}
    {inputs : List Composition}
    (hgrows : Registry.builtin.append? = some func → ∀ c ∈ inputs.head?, c.All (b.Holds true s))
    {span : Span} {count : Nat} {bounded : Bool}
    (hslice : bounded = true → Registry.builtin.slice? = some func) {cs : List Composition}
    (hrun : (callModelled func inputs span count).run s = .ok (cs, s')) :
    b.Since s' ∧ Gives count (b.Holds bounded s') cs := by
  rw [run_callModelled] at hrun
  cases hrun
  generalize houtputs : (List.range' s.scopes.allocated count).map ValueId.tracked = outputs
  have hop : b.Permits s (.call func inputs outputs) count := by
    refine ⟨fun v hv => new_of_mem_outputs (houtputs ▸ hv), fun v hv => ?_⟩
    obtain ⟨hfunc, c, hc, hv⟩ := Operation.mem_grown_call hv
    obtain ⟨hfree, hheld⟩ := hgrows hfunc c hc v hv
    exact ⟨(hheld rfl).1, hfree.1, (hheld rfl).2⟩
  have hslicing : bounded = true → (Operation.call func inputs outputs).isSlicing = true := by
    intro hbounded
    rw [Operation.isSlicing, hslice hbounded]
    exact beq_self_eq_true _
  refine ⟨hop.since hb hs rfl span, ?_, fun c hc => ?_⟩
  · rw [List.length_map, ← houtputs, List.length_map, List.length_range']
  · obtain ⟨v, hv, rfl⟩ := List.mem_map.mp hc
    exact Composition.all_whole fun _ => hop.holds hb hs rfl span hslicing hv

theorem since_callIfModelled (hb : b.Settled) (hs : b.Since s) {func : Option FuncId}
    {inputs : List Composition}
    (hgrows : ∀ f ∈ func, Registry.builtin.append? = some f →
      ∀ c ∈ inputs.head?, c.All (b.Holds true s))
    {span : Span} {count : Nat} {bounded : Bool}
    (hslice : bounded = true → Registry.builtin.slice? = func) {cs : List Composition}
    (hrun : (callIfModelled func inputs span count).run s = .ok (cs, s')) :
    b.Since s' ∧ Gives count (b.Holds bounded s') cs := by
  cases func with
  | none =>
      cases hrun
      exact ⟨hs, gives_blanks count⟩
  | some f => exact since_callModelled hb hs (hgrows f rfl) hslice hrun

/-- The first input is that of the first argument. -/
theorem exists_head_of_forall₂ {p : Expr → Composition → Prop} {args : List Expr}
    {inputs : List Composition} (h : List.Forall₂ p args inputs) {c : Composition}
    (hc : c ∈ inputs.head?) : ∃ e ∈ args.head?, p e c := by
  cases h with
  | nil => cases hc
  | @cons e c' _ _ hfirst _ =>
      obtain rfl : c' = c := Option.some.inj hc
      exact ⟨e, rfl, hfirst⟩

/-- Evaluation keeps states settled, if the growths that were read are bounded where `append` is not
hidden. A world is a state. -/
def settlesLogic (hidden : Bool) : EvaluationLogic .builtin .builtin id BuildState where
  func? _ := none
  means callee func := ∀ f ∈ func, Registry.builtin.append? = some f →
    callee.name? = some Registry.appendName ∧ hidden = false
  since := BuildState.Since
  good := BuildState.Holds
  judge r b s m _ post := BoundsGrowths hidden r.growths →
    (b.scopes.lookup? Registry.appendName).isSome = hidden → b.Settled → b.Since s →
    ∀ a s', m.run s = .ok (a, s') → b.Since s' ∧ post a s'
  since_refl := .refl
  good_later h hs := h.later hs
  good_earlier h hb := h.earlier hb
  good_plain h := h.plain
  pure h _ _ _ hs a s' hrun := by
    cases hrun
    exact ⟨hs, h⟩
  throw _ _ _ _ _ _ _ _ _ _ hrun := by cases hrun
  bind hm hk h hhidden hb hs c s'' hrun := by
    obtain ⟨a, s', hfirst, hrest⟩ := exists_of_run_bind hrun
    obtain ⟨hs', ha⟩ := hm h.left hhidden hb hs a s' hfirst
    exact hk a s' hs' ha h.right hhidden hb hs' c s'' hrest
  rebase hw hm h hhidden hb _ a s' hrun := by
    have hhidden' := (hw.isSome_lookup? Registry.appendName).trans hhidden
    obtain ⟨hs', ha⟩ := hm h hhidden' (hw.settled hb) (.refl _) a s' hrun
    exact ⟨hw.trans hs', hs', ha⟩
  lookup name _ _ _ hb hs v s' hrun := by
    cases hrun
    exact ⟨hs, (hs.settled hb).holds_lookup _⟩
  modelled callee _ _ hhidden _ hs func s' hrun := by
    rw [run_modelled?] at hrun
    cases hrun
    refine ⟨hs, fun f hf happend => ?_⟩
    obtain ⟨hname, hshown⟩ := append_of_func? hf happend
    exact ⟨hname, hhidden ▸ (hs.isSome_lookup? Registry.appendName) ▸ hshown⟩
  call span count _ hfunc hinputs h _ hb hs cs s' hrun := by
    refine since_callIfModelled hb hs (fun f hf hgrow c hc => ?_) (fun hfalse => by cases hfalse)
      hrun
    obtain ⟨hname, hshown⟩ := hfunc f hf hgrow
    obtain ⟨e, he, hheld⟩ := exists_head_of_forall₂ hinputs hc
    rw [if_pos hname] at h
    rwa [h hshown _ List.mem_cons_self e he] at hheld
  slice span count _ _ _ _ hb hs cs s' hrun := by
    -- a bounded slice expression is no growth
    refine since_callIfModelled hb hs (fun f hf hgrow => ?_) (fun _ => rfl) hrun
    exact absurd (hgrow.trans hf.symm) (by decide)

end Build

end SliceLineage
