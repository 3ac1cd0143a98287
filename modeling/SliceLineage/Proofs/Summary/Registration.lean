import SliceLineage.Summary.Registry
import SliceLineage.Proofs.Summary.Faults

/-!
# Registrations in sequence

A registry has two parts, the summaries and the index of their names, and both change with every
summary that is added. Requests to register a summary come in any order, and any of them may be
refused. What holds of the registry afterwards is kept by one request (`Consistent.register`,
`get?_register`) and so by all of them.

* `Registry.Consistent`: the index leads from each name to the one summary that has it, and every
  summary passes its check.
* `Registry.Consistent.register_cases`: what one request can come to.
* `Registry.serve`: the answers to a sequence of requests, and the registry after it.
* `Registry.accepted`: the requests that were granted, with the functions they were given.
* `Registry.registrations_consistent`: what holds after any sequence of requests.
-/

namespace SliceLineage

/-- An alias of one argument lacks nothing but perhaps a name. -/
theorem Summary.check_unaryAlias {name : String} (hname : name ≠ "") (step : GenStep) :
    (unaryAlias name step).check = .ok () := by
  have hname' : (unaryAlias name step).name ≠ "" := hname
  unfold check
  rw [if_neg hname']
  rfl

namespace Registry

variable {r : Registry} {s : Summary}

/-! ## The two parts of the registry -/

/-- The name belongs to a summary of the registry. -/
def Knows (r : Registry) (name : String) : Prop := ∃ t ∈ r.summaries, t.name = name

/-- The index leads from each name to the one summary that has it, and every summary passes its
check. -/
structure Consistent (r : Registry) : Prop where
  index : ∀ name f, r.lookup? name = some f ↔ ∃ s, r.get? f = some s ∧ s.name = name
  checked : ∀ s ∈ r.summaries, s.check = .ok ()

theorem exists_get?_iff {f : FuncId} : (∃ s, r.get? f = some s) ↔ f.index < r.size := by
  rw [← Option.isSome_iff_exists]
  simp [get?, size]

theorem knows_iff {name : String} : r.Knows name ↔ ∃ f s, r.get? f = some s ∧ s.name = name := by
  constructor
  · rintro ⟨s, hs, hname⟩
    obtain ⟨i, hi⟩ := List.mem_iff_getElem?.mp hs
    exact ⟨⟨i⟩, s, hi, hname⟩
  · rintro ⟨f, s, hs, hname⟩
    exact ⟨s, List.mem_of_getElem? hs, hname⟩

theorem get?_enter_iff {f : FuncId} {t : Summary} :
    (r.enter s).get? f = some t ↔ r.get? f = some t ∨ f = ⟨r.size⟩ ∧ t = s := by
  obtain ⟨index⟩ := f
  rw [get?, get?, enter, List.getElem?_append]
  split
  · rename_i hlt
    have hold : index ≠ r.size := Nat.ne_of_lt hlt
    simp [hold]
  · rename_i hnot
    have hge : r.summaries.length ≤ index := Nat.le_of_not_lt hnot
    rw [List.getElem?_singleton, List.getElem?_eq_none hge]
    have hposition : index - r.summaries.length = 0 ↔ index = r.size := by
      rw [size]
      omega
    simp [hposition, eq_comm]

theorem lookup?_enter (r : Registry) (s : Summary) (name : String) :
    (r.enter s).lookup? name = if name = s.name then some ⟨r.size⟩ else r.lookup? name := by
  rw [lookup?, enter, List.lookup_cons]
  split
  · rename_i hname
    rw [if_pos (eq_of_beq hname)]
  · rename_i hname
    rw [if_neg (ne_of_beq_false hname)]
    rfl

namespace Consistent

theorem isSome_lookup?_iff (hr : r.Consistent) {name : String} :
    (r.lookup? name).isSome = true ↔ r.Knows name := by
  rw [Option.isSome_iff_exists, knows_iff]
  exact exists_congr fun f => hr.index name f

/-- Two summaries of one name would be found under one number. -/
theorem names (hr : r.Consistent) : (r.summaries.map Summary.name).Nodup := by
  rw [List.nodup_iff_pairwise_ne, List.pairwise_map, List.pairwise_iff_getElem]
  intro i j hi hj hlt hsame
  have hfirst := (hr.index _ ⟨i⟩).mpr ⟨_, List.getElem?_eq_getElem hi, hsame⟩
  have hsecond := (hr.index _ ⟨j⟩).mpr ⟨_, List.getElem?_eq_getElem hj, rfl⟩
  obtain rfl : i = j := FuncId.mk.inj (Option.some.inj (hfirst.symm.trans hsecond))
  exact Nat.lt_irrefl _ hlt

theorem empty : Consistent .empty where
  index name f := by simp [Registry.empty, get?, lookup?]
  checked := by simp [Registry.empty]

/-- A summary that passes its check may be entered under a new name. -/
theorem enter (hr : r.Consistent) (hok : s.check = .ok ()) (hnew : ¬ r.Knows s.name) :
    (r.enter s).Consistent where
  index name f := by
    rw [lookup?_enter]
    split
    · rename_i hname
      subst hname
      constructor
      · intro hf
        obtain rfl := Option.some.inj hf
        exact ⟨s, get?_enter_iff.mpr (Or.inr ⟨rfl, rfl⟩), rfl⟩
      · rintro ⟨t, ht, hname⟩
        rcases get?_enter_iff.mp ht with ht | ⟨rfl, -⟩
        · exact absurd (knows_iff.mpr ⟨f, t, ht, hname⟩) hnew
        · rfl
    · rename_i hname
      rw [hr.index]
      constructor
      · rintro ⟨t, ht, ht'⟩
        exact ⟨t, get?_enter_iff.mpr (Or.inl ht), ht'⟩
      · rintro ⟨t, ht, ht'⟩
        rcases get?_enter_iff.mp ht with ht | ⟨-, rfl⟩
        · exact ⟨t, ht, ht'⟩
        · exact absurd ht'.symm hname
  checked t ht := by
    rcases List.mem_append.mp ht with ht | ht
    · exact hr.checked t ht
    · rw [List.mem_singleton.mp ht]
      exact hok

/-- The built-in functions are entered without a check, but they would pass it. -/
theorem builtin : Consistent .builtin := by
  have hname : sliceName ≠ "" := by decide
  have hslice := empty.enter (Summary.check_unaryAlias hname .prev)
    fun ⟨_, h, _⟩ => List.not_mem_nil h
  refine hslice.enter (Summary.check_unaryAlias (by decide) .next) ?_
  rintro ⟨t, ht, hname⟩
  rw [List.mem_singleton.mp ht] at hname
  exact absurd hname (by decide)

end Consistent

/-! ## One request -/

/-- **What a request comes to.** Faults of the summary are reported before a taken name, and only a
request that is granted changes the registry. -/
theorem Consistent.register_cases (hr : r.Consistent) (s : Summary) :
    (∃ fault, s.HasFault fault ∧ r.register s = (.error (.summary s.label fault), r)) ∨
    (s.check = .ok () ∧ r.Knows s.name ∧
      r.register s = (.error (.summary s.name .alreadyRegistered), r)) ∨
    (s.check = .ok () ∧ ¬ r.Knows s.name ∧ r.register s = (.ok ⟨r.size⟩, r.enter s)) := by
  rcases s.check_cases with ⟨hok, -⟩ | ⟨fault, hfault, herror⟩
  · by_cases hknown : r.Knows s.name
    · refine Or.inr (Or.inl ⟨hok, hknown, ?_⟩)
      simp [register, hok, hr.isSome_lookup?_iff.mpr hknown]
    · refine Or.inr (Or.inr ⟨hok, hknown, ?_⟩)
      have hnone : ¬ (r.lookup? s.name).isSome = true := mt hr.isSome_lookup?_iff.mp hknown
      simp only [register, hok, if_neg hnone]
  · refine Or.inl ⟨fault, hfault, ?_⟩
    simp [register, herror]

/-- **A refused request changes nothing**, whatever the registry. -/
theorem snd_register_of_error {e : AnalysisError} (h : (r.register s).1 = .error e) :
    (r.register s).2 = r := by
  unfold register at h ⊢
  split
  · rfl
  · rename_i hok
    simp only [hok] at h
    split
    · rfl
    · rename_i hnone
      rw [if_neg hnone] at h
      cases h

namespace Consistent

theorem register_of_hasFault (hr : r.Consistent) (h : ∃ fault, s.HasFault fault) :
    ∃ fault, s.HasFault fault ∧ (r.register s).1 = .error (.summary s.label fault) := by
  obtain ⟨fault, hfault⟩ := h
  rcases hr.register_cases s with ⟨fault, hfault, herror⟩ | ⟨hok, -, -⟩ | ⟨hok, -, -⟩
  · exact ⟨fault, hfault, congrArg Prod.fst herror⟩
  · exact absurd hfault (Summary.check_eq_ok_iff.mp hok fault)
  · exact absurd hfault (Summary.check_eq_ok_iff.mp hok fault)

theorem register_of_knows (hr : r.Consistent) (hok : s.check = .ok ()) (hknown : r.Knows s.name) :
    (r.register s).1 = .error (.summary s.name .alreadyRegistered) := by
  rcases hr.register_cases s with ⟨fault, hfault, -⟩ | ⟨-, -, herror⟩ | ⟨-, hnew, -⟩
  · exact absurd hfault (Summary.check_eq_ok_iff.mp hok fault)
  · exact congrArg Prod.fst herror
  · exact absurd hknown hnew

theorem register_fails_iff (hr : r.Consistent) (s : Summary) :
    (∃ e, (r.register s).1 = .error e) ↔ (∃ fault, s.HasFault fault) ∨ r.Knows s.name := by
  rcases hr.register_cases s with
    ⟨fault, hfault, herror⟩ | ⟨-, hknown, herror⟩ | ⟨hok, hnew, hadded⟩
  · exact ⟨fun _ => Or.inl ⟨fault, hfault⟩, fun _ => ⟨_, congrArg Prod.fst herror⟩⟩
  · exact ⟨fun _ => Or.inr hknown, fun _ => ⟨_, congrArg Prod.fst herror⟩⟩
  · rw [hadded]
    constructor
    · rintro ⟨e, h⟩
      cases h
    · rintro (⟨fault, hfault⟩ | hknown)
      · exact absurd hfault (Summary.check_eq_ok_iff.mp hok fault)
      · exact absurd hknown hnew

/-- **A request keeps the two parts in step.** -/
theorem register (hr : r.Consistent) (s : Summary) : (r.register s).2.Consistent := by
  rcases hr.register_cases s with ⟨_, -, h⟩ | ⟨-, -, h⟩ | ⟨hok, hnew, h⟩ <;> rw [h]
  · exact hr
  · exact hr
  · exact hr.enter hok hnew

end Consistent

/-- Numbers keep their meaning. -/
theorem get?_register {f : FuncId} {t : Summary} (h : r.get? f = some t) (s : Summary) :
    (r.register s).2.get? f = some t := by
  unfold register
  split
  · exact h
  · split
    · exact h
    · exact get?_enter_iff.mpr (Or.inl h)

/-! ## Requests in sequence -/

/-- The answers to requests made one after the other, and the registry after the last one. -/
def serve (r : Registry) : List Summary → List (Except AnalysisError FuncId) × Registry
  | [] => ([], r)
  | s :: rest =>
      let (answer, r') := r.register s
      let (answers, last) := r'.serve rest
      (answer :: answers, last)

/-- The requests that were granted, with the functions given to them. -/
def accepted (requests : List Summary) (answers : List (Except AnalysisError FuncId)) :
    List (Summary × FuncId) :=
  (requests.zip answers).filterMap fun (s, answer) => answer.toOption.map (s, ·)

theorem serve_cons (r : Registry) (s : Summary) (rest : List Summary) :
    r.serve (s :: rest) =
      ((r.register s).1 :: ((r.register s).2.serve rest).1, ((r.register s).2.serve rest).2) := rfl

theorem Consistent.serve (hr : r.Consistent) (requests : List Summary) :
    (r.serve requests).2.Consistent := by
  induction requests generalizing r with
  | nil => exact hr
  | cons s rest ih => exact ih (hr.register s)

theorem get?_serve {f : FuncId} {t : Summary} (h : r.get? f = some t) (requests : List Summary) :
    (r.serve requests).2.get? f = some t := by
  induction requests generalizing r with
  | nil => exact h
  | cons s rest ih => exact ih (get?_register h s)

/-- A request that is refused leaves no trace in the answers that count. -/
theorem accepted_cons_error (s : Summary) (rest : List Summary) (e : AnalysisError)
    (answers : List (Except AnalysisError FuncId)) :
    accepted (s :: rest) (.error e :: answers) = accepted rest answers := rfl

theorem accepted_cons_ok (s : Summary) (rest : List Summary) (f : FuncId)
    (answers : List (Except AnalysisError FuncId)) :
    accepted (s :: rest) (.ok f :: answers) = (s, f) :: accepted rest answers := rfl

/-- The granted requests, and only these, make up the registry, in their order and under the next
free numbers; the refused ones might as well not have been made. -/
theorem Consistent.serve_accepted (hr : r.Consistent) (requests : List Summary) :
    let granted := accepted requests (r.serve requests).1
    (r.serve requests).2.summaries = r.summaries ++ granted.map Prod.fst ∧
    granted.map Prod.snd = (List.range' r.size granted.length).map FuncId.mk ∧
    r.registerAll (granted.map Prod.fst) = .ok (r.serve requests).2 := by
  induction requests generalizing r with
  | nil => exact ⟨(List.append_nil _).symm, rfl, rfl⟩
  | cons s rest ih =>
      have hnext := hr.register s
      rw [serve_cons]
      rcases hr.register_cases s with ⟨_, -, h⟩ | ⟨-, -, h⟩ | ⟨-, -, h⟩ <;> rw [h] at hnext ⊢
      · rw [accepted_cons_error]
        exact ih hr
      · rw [accepted_cons_error]
        exact ih hr
      · obtain ⟨hsummaries, hnumbers, hall⟩ := ih hnext
        have hsize : (r.enter s).size = r.size + 1 := by simp [Registry.enter, size]
        rw [accepted_cons_ok]
        refine ⟨?_, ?_, ?_⟩
        · rw [hsummaries, Registry.enter, List.map_cons, List.append_assoc, List.singleton_append]
        · simp only [List.map_cons, List.length_cons, List.range'_succ]
          rw [hnumbers, hsize]
        · rw [List.map_cons, registerAll, h]
          exact hall

/-- **The registry is consistent after any sequence of requests.** Let `r` be the registry after
requests that were granted or refused in any order. The index leads from a name to a number exactly
if the summary with that number has the name; the numbers are those below the size. The granted
requests stand behind the functions that were there at the start, in their order and under the
numbers that they were given, and no number changes its meaning later on. Names are unique, and
every summary passes its check. A further request is refused exactly if the summary has a fault or
its name is taken, a fault of the summary is reported first, and the registry is then what it was
before. So the refused requests might as well not have been made. -/
theorem registrations_consistent {start : Registry} (hstart : start = .empty ∨ start = .builtin)
    (requests : List Summary) :
    let answers := (start.serve requests).1
    let r := (start.serve requests).2
    let granted := accepted requests answers
    (∀ name f, r.lookup? name = some f ↔ ∃ s, r.get? f = some s ∧ s.name = name) ∧
    (∀ f, (∃ s, r.get? f = some s) ↔ f.index < r.size) ∧
    r.summaries = start.summaries ++ granted.map Prod.fst ∧
    granted.map Prod.snd = (List.range' start.size granted.length).map FuncId.mk ∧
    (∀ more f s, r.get? f = some s → (r.serve more).2.get? f = some s) ∧
    (r.summaries.map Summary.name).Nodup ∧
    (∀ s ∈ r.summaries, s.check = .ok ()) ∧
    start.registerAll (granted.map Prod.fst) = .ok r ∧
    ∀ s, ((∃ e, (r.register s).1 = .error e) ↔ (∃ fault, s.HasFault fault) ∨ r.Knows s.name) ∧
      ((∃ fault, s.HasFault fault) →
        ∃ fault, s.HasFault fault ∧ (r.register s).1 = .error (.summary s.label fault)) ∧
      (s.check = .ok () → r.Knows s.name →
        (r.register s).1 = .error (.summary s.name .alreadyRegistered)) ∧
      ∀ e, (r.register s).1 = .error e → (r.register s).2 = r := by
  intro answers r granted
  have hconsistent : start.Consistent := by
    rcases hstart with rfl | rfl
    · exact .empty
    · exact .builtin
  have hr : r.Consistent := hconsistent.serve requests
  obtain ⟨hsummaries, hnumbers, hall⟩ := hconsistent.serve_accepted requests
  exact ⟨hr.index, fun f => exists_get?_iff, hsummaries, hnumbers,
    fun more f s hget => get?_serve hget more, hr.names, hr.checked, hall,
    fun s => ⟨hr.register_fails_iff s, hr.register_of_hasFault, hr.register_of_knows,
      fun e => snd_register_of_error⟩⟩

/-- A taken name, no name, a new function, a source that is not declared, the same name again, and
another new function. -/
def mixedRequests : List Summary :=
  [.unaryAlias appendName .same, .unaryAlias "" .next, .unaryAlias "grow" .next,
    ⟨"dangling", [], [⟨[⟨[.ofInput 0 .next]⟩]⟩]⟩, .unaryAlias "grow" .prev,
    .unaryAlias "clip" .prev]

theorem mixedRequests_consistent :
    let r := (builtin.serve mixedRequests).2
    accepted mixedRequests (builtin.serve mixedRequests).1 =
      [(.unaryAlias "grow" .next, ⟨2⟩), (.unaryAlias "clip" .prev, ⟨3⟩)] ∧
    r.byName = [("clip", ⟨3⟩), ("grow", ⟨2⟩), (appendName, ⟨1⟩), (sliceName, ⟨0⟩)] ∧
    r.lookup? "grow" = some ⟨2⟩ ∧ (r.summaries.map Summary.name).Nodup ∧
    (r.register (.unaryAlias "grow" .same)).1 = .error (.summary "grow" .alreadyRegistered) ∧
    (r.register (.unaryAlias "grow" .same)).2 = r := by
  obtain ⟨hlookup, -, -, -, -, hnames, -, -, hnext⟩ :=
    registrations_consistent (Or.inr rfl : builtin = empty ∨ builtin = builtin) mixedRequests
  obtain ⟨-, -, htaken, hsame⟩ := hnext (.unaryAlias "grow" .same)
  have hrefused := htaken (by rfl) ⟨.unaryAlias "grow" .next, by decide, rfl⟩
  exact ⟨by rfl, by rfl, (hlookup "grow" ⟨2⟩).mpr ⟨_, rfl, rfl⟩, hnames, hrefused, hsame _ hrefused⟩

end Registry

end SliceLineage
