import Mathlib.Data.List.Forall2
import SliceLineage.Proofs.Build.Course
import SliceLineage.Proofs.Flow.History

/-!
# What the walk hands out and records

Values come from one supply, which only moves forward. A step of the walk therefore hands out values
that are new, some of them for names and some of them for the outputs of calls and the results of
returns, and it appends operations after all others.

* `Scopes.Separate`: the names in scope have values of their own.
* `temporaries`: the values that calls and returns get, read off the recorded operations.
* `Build.Advance`: what a step does to the supply, to the names and to the record.
* `Build.Logs`: a step advances whenever it succeeds; `logs_evaluate`: so does evaluation.
-/

namespace SliceLineage

/-! ## Values below a bound -/

/-- The value was handed out before the supply came to `n`. -/
def ValueId.Below (n : Nat) (v : ValueId) : Prop := ∀ i, v = tracked i → i < n

theorem ValueId.below_blank (n : Nat) : ValueId.Below n .blank := by
  intro i h
  cases h

theorem ValueId.Below.mono {n n' : Nat} {v : ValueId} (h : v.Below n) (hn : n ≤ n') :
    v.Below n' := fun i hi => Nat.lt_of_lt_of_le (h i hi) hn

/-! ## Names with values of their own -/

namespace Scopes

/-- No two declarations in scope share a value, and all their values were handed out. -/
structure Separate (s : Scopes) : Prop where
  nodup : (s.frames.flatten.map Prod.snd).Nodup
  below : ∀ b ∈ s.frames.flatten, ∃ i, b.2 = .tracked i ∧ i < s.allocated

variable {s : Scopes}

theorem Separate.mono (h : s.Separate) {n : Nat} (hn : s.allocated ≤ n) :
    Separate { s with allocated := n } :=
  ⟨h.nodup, fun b hb => (h.below b hb).imp fun _ hi => ⟨hi.1, Nat.lt_of_lt_of_le hi.2 hn⟩⟩

theorem Separate.push (h : s.Separate) : s.push.Separate := ⟨h.nodup, h.below⟩

theorem flatten_pop_sublist (s : Scopes) : s.pop.frames.flatten.Sublist s.frames.flatten := by
  cases hf : s.frames with
  | nil => simp [pop, hf]
  | cons frame rest => simp [pop, hf]

theorem Separate.pop (h : s.Separate) : s.pop.Separate :=
  ⟨h.nodup.sublist ((flatten_pop_sublist s).map _), fun b hb =>
    h.below b ((flatten_pop_sublist s).subset hb)⟩

theorem flatten_bind (s : Scopes) (name : String) (v : ValueId) :
    (s.bind name v).frames.flatten = (name, v) :: s.frames.flatten := by
  unfold bind
  split <;> simp_all

theorem declare_eq (s : Scopes) {name : String} (h : name ≠ blankName) :
    s.declare name =
      (.tracked s.allocated, { s with allocated := s.allocated + 1 }.bind name
        (.tracked s.allocated)) := by
  simp [declare, h, fresh]

theorem allocated_bind (s : Scopes) (name : String) (v : ValueId) :
    (s.bind name v).allocated = s.allocated := by
  unfold bind
  split <;> rfl

theorem Separate.declare (h : s.Separate) {name : String} : (s.declare name).2.Separate := by
  by_cases hname : name = blankName
  · simpa [Scopes.declare, hname] using h
  · have hmore := h.mono (Nat.le_succ s.allocated)
    rw [declare_eq s hname]
    refine ⟨?_, fun b hb => ?_⟩
    · rw [flatten_bind, List.map_cons, List.nodup_cons]
      refine ⟨fun hmem => ?_, h.nodup⟩
      obtain ⟨b, hb, heq⟩ := List.mem_map.mp hmem
      obtain ⟨i, hi, hlt⟩ := h.below b hb
      rw [hi] at heq
      cases heq
      exact Nat.lt_irrefl _ hlt
    · rw [allocated_bind]
      rw [flatten_bind] at hb
      rcases List.mem_cons.mp hb with rfl | hb
      · exact ⟨_, rfl, Nat.lt_succ_self _⟩
      · exact hmore.below b hb

/-- The value of a name is one of those in scope. -/
theorem mem_flatten_of_lookup? {name : String} (hname : name ≠ blankName) {v : ValueId}
    (h : s.lookup? name = some v) : (name, v) ∈ s.frames.flatten := by
  rw [lookup?, if_neg hname] at h
  obtain ⟨frame, hframe, hfound⟩ := List.exists_of_findSome?_eq_some h
  refine List.mem_flatten.mpr ⟨frame, hframe, ?_⟩
  obtain ⟨l₁, l₂, rfl, -⟩ := List.lookup_eq_some_iff.mp hfound
  simp

theorem Separate.below_lookup (h : s.Separate) (name : String) :
    (s.lookup name).Below s.allocated := by
  unfold lookup
  cases hfound : s.lookup? name with
  | none => exact ValueId.below_blank _
  | some v =>
      by_cases hname : name = blankName
      · rw [lookup?, if_pos hname] at hfound
        cases hfound
        exact ValueId.below_blank _
      · obtain ⟨i, hi, hlt⟩ := h.below _ (mem_flatten_of_lookup? hname hfound)
        intro j hj
        obtain rfl : i = j := ValueId.tracked.inj (hi.symm.trans hj)
        exact hlt

end Scopes

/-! ## Operations that use values -/

namespace Operation

/-- The values of a return. -/
def returned? : Operation → Option (List ValueId)
  | ret values => some values
  | _ => none

/-- A call does not read its own outputs. -/
def SparesOutputs : Operation → Prop
  | call _ inputs outputs => ∀ c ∈ inputs, ∀ e ∈ c.embeds, e.selector.value ∉ outputs
  | _ => True

/-- The operation copies a region. -/
def isCopy : Operation → Bool
  | assign .. => true
  | _ => false

end Operation

/-- The outputs of calls, and the values of returns that list results, in order. The result lists of
the returns are given in the order of the returns. -/
def temporaries : List (List Expr) → List Operation → List ValueId
  | _, [] => []
  | returns, .call _ _ outputs :: ops => outputs ++ temporaries returns ops
  | returns, .ret values :: ops =>
      (if (returns.headD []).isEmpty then [] else values) ++ temporaries returns.tail ops
  | returns, .assign .. :: ops | returns, .noop :: ops | returns, .move .. :: ops =>
      temporaries returns ops

theorem temporaries_append (ops ops' : List Operation) (returns' : List (List Expr)) :
    ∀ returns : List (List Expr), (ops.filterMap Operation.returned?).length = returns.length →
      temporaries (returns ++ returns') (ops ++ ops') =
        temporaries returns ops ++ temporaries returns' ops' := by
  induction ops with
  | nil =>
      intro returns h
      obtain rfl : returns = [] := List.length_eq_zero_iff.mp h.symm
      rfl
  | cons op ops ih =>
      intro returns h
      cases op with
      | ret values =>
          cases returns with
          | nil => simp [Operation.returned?] at h
          | cons results returns =>
              have hrest := ih returns (by simpa [Operation.returned?] using h)
              simp [temporaries, hrest]
      | call func inputs outputs => simp [temporaries, ih returns h]
      | assign source target => exact ih returns h
      | noop => exact ih returns h
      | move source target step => exact ih returns h

theorem temporaries_of_isCopy {ops : List Operation} (h : ∀ op ∈ ops, op.isCopy = true)
    (returns : List (List Expr)) : temporaries returns ops = [] := by
  induction ops with
  | nil => rfl
  | cons op ops ih =>
      have hop := h op List.mem_cons_self
      cases op with
      | assign source target => exact ih fun op' hop' => h op' (List.mem_cons_of_mem _ hop')
      | _ => cases hop

theorem returned?_of_isCopy {ops : List Operation} (h : ∀ op ∈ ops, op.isCopy = true) :
    ops.filterMap Operation.returned? = [] := by
  rw [List.filterMap_eq_nil_iff]
  intro op hop
  have hcopy := h op hop
  cases op with
  | assign source target => rfl
  | _ => cases hcopy

theorem Operation.sparesOutputs_of_isCopy {op : Operation} (h : op.isCopy = true) :
    op.SparesOutputs := by
  cases op with
  | assign source target => trivial
  | _ => cases h

/-- What a return with these results gives back: the named results if it lists none, and as many
values as the function has results otherwise. -/
def BuildContext.Returns (ctx : BuildContext) (results : List Expr) (values : List ValueId) :
    Prop :=
  if results = [] then values = ctx.namedResults else values.length = ctx.arity

/-! ## Advancing -/

namespace Build

/-- From one state to the other the supply moves on; the given operations are recorded after all
others, and their temporaries are the values with the given numbers; and the names in scope either
were there before or have new values that are no temporaries. -/
structure Advance (ctx : BuildContext) (returns : List (List Expr)) (s s' : BuildState)
    (ops : List Operation) (numbers : List Nat) : Prop where
  supply : s.scopes.allocated ≤ s'.scopes.allocated
  records : ∀ old, s.cursor.graph.Records old → s'.cursor.graph.Records (old ++ ops)
  returned : List.Forall₂ ctx.Returns returns (ops.filterMap Operation.returned?)
  numbered : temporaries returns ops = numbers.map .tracked
  ascending : numbers.Pairwise (· < ·)
  fresh : ∀ i ∈ numbers, s.scopes.allocated ≤ i ∧ i < s'.scopes.allocated
  spares : ∀ op ∈ ops, op.SparesOutputs
  names : ∀ b ∈ s'.scopes.frames.flatten, b ∈ s.scopes.frames.flatten ∨
    ∃ i, b.2 = .tracked i ∧ s.scopes.allocated ≤ i ∧ i < s'.scopes.allocated ∧ i ∉ numbers

/-- Some operations with some temporaries lie between the two states. -/
def Advances (ctx : BuildContext) (returns : List (List Expr)) (s s' : BuildState) : Prop :=
  ∃ ops numbers, Advance ctx returns s s' ops numbers

section

variable {ctx : BuildContext} {returns returns' : List (List Expr)} {s s' s'' : BuildState}

theorem Advance.trans {ops ops' : List Operation} {numbers numbers' : List Nat}
    (h : Advance ctx returns s s' ops numbers) (h' : Advance ctx returns' s' s'' ops' numbers') :
    Advance ctx (returns ++ returns') s s'' (ops ++ ops') (numbers ++ numbers') where
  supply := Nat.le_trans h.supply h'.supply
  records old hold := by
    rw [← List.append_assoc]
    exact h'.records _ (h.records old hold)
  returned := by
    rw [List.filterMap_append]
    exact List.rel_append h.returned h'.returned
  numbered := by
    rw [temporaries_append _ _ _ _ h.returned.length_eq.symm, h.numbered, h'.numbered,
      List.map_append]
  ascending := by
    refine List.pairwise_append.mpr ⟨h.ascending, h'.ascending, fun i hi j hj => ?_⟩
    exact Nat.lt_of_lt_of_le (h.fresh i hi).2 (h'.fresh j hj).1
  fresh i hi := by
    have hsupply := h.supply
    have hsupply' := h'.supply
    rcases List.mem_append.mp hi with hi | hi
    · have := h.fresh i hi
      omega
    · have := h'.fresh i hi
      omega
  spares op hop := (List.mem_append.mp hop).elim (h.spares op) (h'.spares op)
  names b hb := by
    -- A value of one of the two parts is no temporary of the other one, by its number.
    have hsupply := h.supply
    have hsupply' := h'.supply
    rcases h'.names b hb with hb | ⟨i, hi, hlo, hhi, hnot⟩
    · refine (h.names b hb).imp id fun ⟨i, hi, hlo, hhi, hnot⟩ => ⟨i, hi, hlo, by omega, ?_⟩
      rw [List.mem_append]
      rintro (hmem | hmem)
      · exact hnot hmem
      · exact Nat.not_lt_of_le (h'.fresh i hmem).1 hhi
    · refine Or.inr ⟨i, hi, by omega, hhi, ?_⟩
      rw [List.mem_append]
      rintro (hmem | hmem)
      · exact Nat.not_lt_of_le hlo (h.fresh i hmem).2
      · exact hnot hmem

theorem Advances.supply (h : Advances ctx returns s s') :
    s.scopes.allocated ≤ s'.scopes.allocated := by
  obtain ⟨ops, numbers, h⟩ := h
  exact Advance.supply h

theorem Advances.trans (h : Advances ctx returns s s') (h' : Advances ctx returns' s' s'') :
    Advances ctx (returns ++ returns') s s'' := by
  obtain ⟨ops, numbers, h⟩ := h
  obtain ⟨ops', numbers', h'⟩ := h'
  exact ⟨_, _, h.trans h'⟩

/-- Copies are recorded, nothing else happens, and the names stay within those in scope. -/
theorem Advance.of_copies {ops : List Operation} (hops : ∀ op ∈ ops, op.isCopy = true)
    (hrecords : ∀ old, s.cursor.graph.Records old → s'.cursor.graph.Records (old ++ ops))
    (hsupply : s.scopes.allocated ≤ s'.scopes.allocated)
    (hnames : ∀ b ∈ s'.scopes.frames.flatten, b ∈ s.scopes.frames.flatten ∨
      ∃ i, b.2 = .tracked i ∧ s.scopes.allocated ≤ i ∧ i < s'.scopes.allocated) :
    Advance ctx [] s s' ops [] where
  supply := hsupply
  records := hrecords
  returned := by
    rw [returned?_of_isCopy hops]
    exact .nil
  numbered := temporaries_of_isCopy hops []
  ascending := .nil
  fresh := by simp
  spares op hop := Operation.sparesOutputs_of_isCopy (hops op hop)
  names b hb := (hnames b hb).imp id fun ⟨i, hi, hlo, hhi⟩ => ⟨i, hi, hlo, hhi, by simp⟩

/-- Values of names are no temporaries, of what came before or of what is still to come. -/
theorem Advance.not_mem_numbers {ops ops' : List Operation} {numbers numbers' : List Nat}
    (h : Advance ctx returns s s' ops numbers) (h' : Advance ctx returns' s' s'' ops' numbers')
    (hs : s.scopes.Separate) {name : String} {i : Nat}
    (hbound : (name, .tracked i) ∈ s'.scopes.frames.flatten) : i ∉ numbers ++ numbers' := by
  rw [List.mem_append]
  rintro (hi | hi)
  · have hfresh := h.fresh i hi
    rcases h.names _ hbound with hold | ⟨j, hj, -, -, hnot⟩
    · obtain ⟨j, hj, hlt⟩ := hs.below _ hold
      cases hj
      omega
    · cases hj
      exact hnot hi
  · have hfresh := h'.fresh i hi
    have hsupply := h.supply
    rcases h.names _ hbound with hold | ⟨j, hj, -, hlt, -⟩
    · obtain ⟨j, hj, hlt⟩ := hs.below _ hold
      cases hj
      omega
    · cases hj
      omega

theorem Advances.refl (s : BuildState) : Advances ctx [] s s :=
  ⟨[], [], .of_copies (by simp) (by simp) (Nat.le_refl _) fun _ hb => Or.inl hb⟩

end

/-- Whenever the step succeeds, with `n` values handed out and names that are separate, it advances,
the names are separate again, and the result has the property for the new supply. -/
def Logs {α : Type} (ctx : BuildContext) (n : Nat) (returns : List (List Expr)) (m : Build α)
    (post : α → Nat → Prop) : Prop :=
  ∀ s a s', s.scopes.allocated = n → s.scopes.Separate → m.run s = .ok (a, s') →
    s'.scopes.Separate ∧ Advances ctx returns s s' ∧ post a s'.scopes.allocated

/-- Any result. -/
abbrev anything {α : Type} : α → Nat → Prop := fun _ _ => True

section

variable {ctx : BuildContext} {n n' : Nat} {returns returns' : List (List Expr)} {α β : Type}
  {m : Build α} {post : α → Nat → Prop}

namespace Logs

/-- The names stay and nothing is recorded. -/
theorem idle
    (hm : ∀ s a s', m.run s = .ok (a, s') → s'.scopes = s.scopes ∧
      ∀ old, s.cursor.graph.Records old → s'.cursor.graph.Records old)
    (hpost : ∀ s a s', s.scopes.allocated = n → s.scopes.Separate → m.run s = .ok (a, s') →
      post a s.scopes.allocated) : Logs ctx n [] m post := by
  intro s a s' hn hs hrun
  obtain ⟨hscopes, hrecords⟩ := hm s a s' hrun
  rw [hscopes]
  refine ⟨hs, ⟨[], [], .of_copies (by simp) ?_ ?_ ?_⟩, hpost s a s' hn hs hrun⟩
  · simpa using hrecords
  · exact Nat.le_of_eq (by rw [hscopes])
  · rw [hscopes]
    exact fun b hb => Or.inl hb

theorem pure {a : α} (h : post a n) : Logs ctx n [] (Pure.pure a : Build α) post := by
  refine idle ?_ ?_
  · intro s b s' hrun
    cases hrun
    exact ⟨rfl, fun _ h => h⟩
  · intro s b s' hn _ hrun
    cases hrun
    rwa [hn]

theorem throw (e : AnalysisError) : Logs ctx n returns (MonadExcept.throw e : Build α) post := by
  intro s a s' _ _ hrun
  cases hrun

theorem bind {k : α → Build β} {post' : β → Nat → Prop} (hm : Logs ctx n returns m post)
    (hk : ∀ a n', n ≤ n' → post a n' → Logs ctx n' returns' (k a) post') :
    Logs ctx n (returns ++ returns') (m >>= k) post' := by
  intro s b s'' hn hs hrun
  obtain ⟨a, s', hfirst, hrest⟩ := exists_of_run_bind hrun
  obtain ⟨hs', hadvance, ha⟩ := hm s a s' hn hs hfirst
  have hle : n ≤ s'.scopes.allocated := hn ▸ hadvance.supply
  obtain ⟨hs'', hadvance', hb⟩ := hk a _ hle ha s' b s'' rfl hs' hrest
  exact ⟨hs'', hadvance.trans hadvance', hb⟩

theorem imp {post' : α → Nat → Prop} (hm : Logs ctx n returns m post)
    (h : ∀ a n', n ≤ n' → post a n' → post' a n') : Logs ctx n returns m post' := by
  intro s a s' hn hs hrun
  obtain ⟨hs', hadvance, ha⟩ := hm s a s' hn hs hrun
  exact ⟨hs', hadvance, h a _ (hn ▸ hadvance.supply) ha⟩

/-- A step without returns before another one. -/
theorem before {k : α → Build β} {post' : β → Nat → Prop} (hm : Logs ctx n [] m post)
    (hk : ∀ a n', n ≤ n' → post a n' → Logs ctx n' returns (k a) post') :
    Logs ctx n returns (m >>= k) post' := hm.bind hk

/-- A step without returns after another one. -/
theorem followedBy {k : α → Build β} {post' : β → Nat → Prop} (hm : Logs ctx n returns m post)
    (hk : ∀ a n', n ≤ n' → post a n' → Logs ctx n' [] (k a) post') :
    Logs ctx n returns (m >>= k) post' := by
  have h := hm.bind hk
  rwa [List.append_nil] at h

theorem discard (hm : Logs ctx n returns m post) :
    Logs ctx n returns (Functor.discard m) anything := hm.followedBy fun _ _ _ _ => .pure trivial

/-- Reading the state. -/
theorem reads {f : BuildState → α}
    (h : ∀ s, s.scopes.allocated = n → s.scopes.Separate → post (f s) s.scopes.allocated) :
    Logs ctx n [] (do return f (← get) : Build α) post := by
  refine idle ?_ ?_
  · intro s a s' hrun
    cases hrun
    exact ⟨rfl, fun _ h => h⟩
  · intro s a s' hn hs hrun
    cases hrun
    exact h s hn hs

theorem ite {c : Prop} [Decidable c] {m' : Build α} (hm : Logs ctx n returns m post)
    (hm' : Logs ctx n returns m' post) : Logs ctx n returns (if c then m else m') post := by
  split
  · exact hm
  · exact hm'

end Logs

/-! ## Steps of the cursor -/

theorem logs_moveTo (p : PointId) : Logs ctx n [] (moveTo p) anything := by
  refine .idle ?_ fun _ _ _ _ _ _ => trivial
  intro s a s' hrun
  cases hrun
  exact ⟨rfl, fun _ h => h⟩

theorem logs_reserve (span : Span) : Logs ctx n [] (reserve span) anything := by
  refine .idle ?_ fun _ _ _ _ _ _ => trivial
  intro s a s' hrun
  cases hrun
  exact ⟨rfl, fun _ h => h.allocate (some span)⟩

theorem logs_join (p : PointId) : Logs ctx n [] (join p) anything := by
  refine .idle ?_ fun _ _ _ _ _ _ => trivial
  intro s a s' hrun
  obtain ⟨c, hjoin, rfl⟩ := exists_of_run_join hrun
  exact ⟨rfl, fun _ h => Cursor.records_join h hjoin⟩

theorem logs_current : Logs ctx n [] current anything := .reads fun _ _ _ => trivial

theorem logs_closeLoop (anchor : PointId) : Logs ctx n [] (closeLoop anchor) anything :=
  logs_current.before fun _ _ _ _ => .ite (.pure trivial) (logs_join anchor)

theorem logs_noop (span : Span) : Logs ctx n [] (append .noop span) anything := by
  refine .idle ?_ fun _ _ _ _ _ _ => trivial
  intro s a s' hrun
  cases hrun
  exact ⟨rfl, fun _ h => Cursor.records_append h .noop (some span)⟩

theorem logs_arm (after : PointId) {setup body : Build Unit}
    (hsetup : ∀ n, Logs ctx n returns setup anything)
    (hbody : ∀ n, Logs ctx n returns' body anything) :
    Logs ctx n (returns ++ returns') (arm after setup body) anything := by
  refine (hsetup n).bind fun _ n₁ _ _ => logs_current.before fun fork n₂ _ _ => ?_
  exact (hbody n₂).followedBy fun _ _ _ _ => (logs_join after).before fun _ _ _ _ =>
    logs_moveTo fork

/-! ## Names -/

theorem logs_push : Logs ctx n [] (modify fun s => { s with scopes := s.scopes.push } : Build PUnit)
    anything := by
  intro s a s' _ hs hrun
  cases hrun
  refine ⟨hs.push, ⟨[], [], .of_copies (by simp) (by simp) (Nat.le_refl _) ?_⟩, trivial⟩
  exact fun b hb => Or.inl hb

theorem logs_pop : Logs ctx n [] (modify fun s => { s with scopes := s.scopes.pop } : Build PUnit)
    anything := by
  intro s a s' _ hs hrun
  cases hrun
  refine ⟨hs.pop, ⟨[], [], .of_copies (by simp) (by simp) (Nat.le_refl _) ?_⟩, trivial⟩
  exact fun b hb => Or.inl ((Scopes.flatten_pop_sublist _).subset hb)

theorem logs_inFrame {step : Build Unit} (h : ∀ n, Logs ctx n returns step anything) :
    Logs ctx n returns (inFrame step) anything :=
  logs_push.before fun _ n' _ _ => (h n').followedBy fun _ _ _ _ => logs_pop

theorem logs_declare (name : String) : Logs ctx n [] (declare name) anything := by
  intro s a s' _ hs hrun
  obtain rfl : { s with scopes := (s.scopes.declare name).2 } = s' :=
    congrArg Prod.snd (Except.ok.inj hrun)
  refine ⟨hs.declare, ⟨[], [], ?_⟩, trivial⟩
  by_cases hname : name = Scopes.blankName
  · have hsame : (s.scopes.declare name).2 = s.scopes := by simp [Scopes.declare, hname]
    rw [hsame]
    exact .of_copies (by simp) (by simp) (Nat.le_refl _) fun b hb => Or.inl hb
  · rw [Scopes.declare_eq _ hname]
    refine .of_copies (by simp) (by simp) ?_ fun b hb => ?_
    · rw [Scopes.allocated_bind]
      exact Nat.le_succ _
    · rw [Scopes.flatten_bind] at hb
      rw [Scopes.allocated_bind]
      rcases List.mem_cons.mp hb with rfl | hb
      · exact Or.inr ⟨_, rfl, Nat.le_refl _, Nat.lt_succ_self _⟩
      · exact Or.inl hb

/-! ## Storing -/

/-- Only copies lie between the two states. -/
def Copies (s s' : BuildState) : Prop :=
  s'.scopes = s.scopes ∧ ∃ ops, (∀ op ∈ ops, Operation.isCopy op = true) ∧
    ∀ old, s.cursor.graph.Records old → s'.cursor.graph.Records (old ++ ops)

theorem Copies.refl (s : BuildState) : Copies s s := ⟨rfl, [], by simp, by simp⟩

theorem Copies.trans {s s' s'' : BuildState} (h : Copies s s') (h' : Copies s' s'') :
    Copies s s'' := by
  obtain ⟨hscopes, ops, hops, hrecords⟩ := h
  obtain ⟨hscopes', ops', hops', hrecords'⟩ := h'
  refine ⟨hscopes'.trans hscopes, ops ++ ops', fun op hop => ?_, fun old hold => ?_⟩
  · exact (List.mem_append.mp hop).elim (hops op) (hops' op)
  · rw [← List.append_assoc]
    exact hrecords' _ (hrecords old hold)

theorem copies_of_run_copy {source target : Selector} {span : Span} {s s' : BuildState}
    (h : (copy source target span).run s = .ok ((), s')) : Copies s s' := by
  unfold copy at h
  split at h
  · cases h
    exact .refl s
  · cases h
    refine ⟨rfl, [.assign source target], by simp [Operation.isCopy], fun old hold => ?_⟩
    exact Cursor.records_append hold (.assign source target) (some span)

theorem copies_of_run_store {target : Selector} {c : Composition} {span : Span}
    {s s' : BuildState} (h : (store target c span).run s = .ok ((), s')) : Copies s s' := by
  unfold store at h
  split at h
  · exact copies_of_run_copy h
  · generalize c.embeds = embeds at h
    induction embeds generalizing s with
    | nil =>
        cases h
        exact .refl _
    | cons e embeds ih =>
        obtain ⟨_, s₁, hfirst, hrest⟩ := exists_of_run_bind h
        exact (copies_of_run_copy hfirst).trans (ih hrest)

theorem Logs.of_copies {m : Build Unit} (hm : ∀ s s', m.run s = .ok ((), s') → Copies s s') :
    Logs ctx n [] m anything := by
  intro s a s' _ hs hrun
  obtain ⟨hscopes, ops, hops, hrecords⟩ := hm s s' hrun
  rw [hscopes]
  refine ⟨hs, ⟨ops, [], .of_copies hops hrecords ?_ ?_⟩, trivial⟩
  · exact Nat.le_of_eq (by rw [hscopes])
  · rw [hscopes]
    exact fun b hb => Or.inl hb

theorem logs_copy (source target : Selector) (span : Span) :
    Logs ctx n [] (copy source target span) anything := .of_copies fun _ _ => copies_of_run_copy

theorem logs_store (target : Selector) (c : Composition) (span : Span) :
    Logs ctx n [] (store target c span) anything := .of_copies fun _ _ => copies_of_run_store

/-! ## Expressions -/

theorem all_of_forall₂ {p : Composition → Prop} {es : List Expr} {cs : List Composition}
    (h : List.Forall₂ (fun _ c => p c) es cs) : ∀ c ∈ cs, p c := by
  induction h with
  | nil => simp
  | cons hc _ ih => exact List.forall_mem_cons.mpr ⟨hc, ih⟩

/-- A call of a modelled function: its outputs are new, so that its inputs do not mention them. -/
theorem logs_callModelled (func : FuncId) {inputs : List Composition}
    (hinputs : ∀ c ∈ inputs, c.All (ValueId.Below n)) (span : Span) (count : Nat) :
    Logs ctx n [] (callModelled func inputs span count)
      fun cs n' => Gives count (ValueId.Below n') cs := by
  rintro s cs s' rfl hs hrun
  rw [run_callModelled] at hrun
  cases hrun
  refine ⟨hs.mono (Nat.le_add_right _ _),
    ⟨[.call func inputs ((List.range' s.scopes.allocated count).map .tracked)],
      List.range' s.scopes.allocated count, ?_⟩, by simp, ?_⟩
  · refine ⟨Nat.le_add_right _ _, fun old hold => ?_, .nil, by simp [temporaries],
      List.pairwise_lt_range', fun i hi => List.mem_range'_1.mp hi, ?_, fun b hb => Or.inl hb⟩
    · exact Cursor.records_append hold (.call func inputs _) (some span)
    · intro op hop
      rw [List.mem_singleton.mp hop]
      intro c hc e he hmem
      obtain ⟨i, hi, heq⟩ := List.mem_map.mp hmem
      have hfollowed : .tracked i ∈ c.followed :=
        Composition.mem_followed.mpr ⟨by simp, e, he, heq.symm⟩
      have hlt := hinputs c hc _ hfollowed i rfl
      have hge := (List.mem_range'_1.mp hi).1
      omega
  · intro c hc
    obtain ⟨v, hv, rfl⟩ := List.mem_map.mp hc
    obtain ⟨i, hi, rfl⟩ := List.mem_map.mp hv
    refine Composition.all_whole fun _ j hj => ?_
    obtain rfl : i = j := ValueId.tracked.inj hj
    exact (List.mem_range'_1.mp hi).2

theorem logs_callIfModelled (func : Option FuncId) {inputs : List Composition}
    (hinputs : ∀ c ∈ inputs, c.All (ValueId.Below n)) (span : Span) (count : Nat) :
    Logs ctx n [] (callIfModelled func inputs span count)
      fun cs n' => Gives count (ValueId.Below n') cs := by
  cases func with
  | none => exact .pure (gives_blanks count)
  | some func => exact logs_callModelled func hinputs span count

/-- Evaluation advances; a world is the number of values that were handed out. -/
def logsLogic (ctx : BuildContext) (registry : Registry) :
    EvaluationLogic registry registry id Nat where
  func? _ := none
  means _ _ := True
  since n n' := n ≤ n'
  good _ _ n v := v.Below n
  judge _ b n m _ post := b ≤ n → Logs ctx n [] m post
  since_refl := Nat.le_refl
  good_later h hn := h.mono hn
  good_earlier h _ := h
  good_plain h := h
  pure h _ := .pure h
  throw _ _ _ _ _ := .throw _
  bind hm hk hb := (hm hb).before fun a n' hn ha =>
    hk a n' (Nat.le_trans hb hn) ha (Nat.le_trans hb hn)
  rebase _ hm _ := (hm (Nat.le_refl _)).imp fun _ _ hn ha => ⟨hn, ha⟩
  lookup name _ _ := .reads fun s _ hs _ => hs.below_lookup name
  modelled callee _ _ := by
    refine .idle (fun s func s' hrun => ?_) fun _ _ _ _ _ _ => trivial
    rw [run_modelled?] at hrun
    cases hrun
    exact ⟨rfl, fun _ h => h⟩
  call span count _ _ hinputs _ := logs_callIfModelled _ (all_of_forall₂ hinputs) span count
  slice span count _ hc _ := logs_callIfModelled _ (by simpa using hc) span count

section

variable (registry : Registry)

/-- **Evaluation advances**, and what it gives is made of values that were handed out. -/
theorem logs_evaluate (e : Expr) (count n : Nat) : Logs ctx n [] (evaluate registry e count)
    fun cs n' => Gives count (ValueId.Below n') cs :=
  (logsLogic ctx registry).evaluate e count (Nat.le_refl n) (Nat.le_refl n)

theorem logs_evaluateFor (e : Option Expr) (n : Nat) :
    Logs ctx n [] (evaluateFor registry e) anything :=
  (logsLogic ctx registry).evaluateFor e (Nat.le_refl n) (Nat.le_refl n)

theorem logs_evaluateOne (e : Expr) : Logs ctx n [] (evaluateOne registry e) anything :=
  ((logsLogic ctx registry).evaluateOne e (Nat.le_refl n) (Nat.le_refl n)).imp
    fun _ _ _ _ => trivial

theorem logs_evaluateValues (span : Span) (values : List Expr) (targets : Nat) :
    Logs ctx n [] (evaluateValues registry span values targets) fun cs _ => cs.length = targets :=
  (logsLogic ctx registry).evaluateValues span values targets (Nat.le_refl n) (Nat.le_refl n)

end

end

end Build

end SliceLineage
