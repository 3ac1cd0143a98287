import SliceLineage.Summary.Basic

/-!
# What a summary is refused for

The check goes through outcomes, outputs and components and stops at the first thing that is wrong.
Here each fault is said of the summary as a whole, without an order.

* `Summary.HasFault`: the summary has the fault.
* `Summary.check_cases`: a summary that is refused has the fault that is reported, and one that is
  accepted has none.
-/

namespace SliceLineage

namespace Summary

variable {s : Summary}

/-- The input region is declared, at this path of its argument. -/
def Declares (s : Summary) (ref : InputRef) (path : FieldPath) : Prop :=
  ∃ slot, s.inputs[ref.arg.toNat]? = some slot ∧
    slot.components[ref.component.toNat]? = some path

/-- The fault is one of the summary itself; that a name is taken depends on the registry. -/
def HasFault (s : Summary) : SummaryFault → Prop
  | .emptyName => s.name = ""
  | .noOutcomes => s.outcomes = []
  | .outputCount position outputs expected =>
      outputs ≠ expected ∧
        (∃ first, s.outcomes.head? = some first ∧ first.outputs.length = expected) ∧
        ∃ o, s.outcomes[position]? = some o ∧ o.outputs.length = outputs
  | .undeclaredInput position output arg component =>
      ∃ o slot, s.outcomes[position]? = some o ∧ o.outputs[output]? = some slot ∧
        (∃ c ∈ slot.components, c.source = some ⟨arg, component⟩) ∧
        ∀ path, ¬ s.Declares ⟨arg, component⟩ path
  | .alreadyRegistered => False

/-- How a refused summary is called. -/
def label (s : Summary) : String := if s.name = "" then "<unnamed>" else s.name

theorem outputCount_eq {first : Outcome} (h : s.outcomes.head? = some first) :
    s.outputCount = first.outputs.length := by
  obtain ⟨rest, hrest⟩ := List.head?_eq_some_iff.mp h
  rw [outputCount, hrest]

theorem inputPath?_eq_some_iff {ref : InputRef} {path : FieldPath} :
    s.inputPath? ref = some path ↔ s.Declares ref path := by
  unfold inputPath? Declares
  cases s.inputs[ref.arg.toNat]? with
  | none => simp
  | some slot => simp

theorem inputPath?_eq_none_iff {ref : InputRef} :
    s.inputPath? ref = none ↔ ∀ path, ¬ s.Declares ref path := by
  simp only [Option.eq_none_iff_forall_ne_some, ne_eq, inputPath?_eq_some_iff]

theorem mem_undeclaredInputs_iff {o : Outcome} {output : Nat} {ref : InputRef} :
    (output, ref) ∈ s.undeclaredInputs o ↔
      ∃ slot, o.outputs[output]? = some slot ∧ (∃ c ∈ slot.components, c.source = some ref) ∧
        ∀ path, ¬ s.Declares ref path := by
  simp only [undeclaredInputs, List.mem_flatMap, List.mem_filterMap, Prod.exists,
    List.mk_mem_zipIdx_iff_getElem?, Option.ite_none_right_eq_some, Option.isNone_iff_eq_none,
    inputPath?_eq_none_iff, Option.some.injEq, Prod.mk.injEq]
  constructor
  · rintro ⟨slot, k, hslot, ref', ⟨c, hc, hsource⟩, hundeclared, rfl, rfl⟩
    exact ⟨slot, hslot, ⟨c, hc, hsource⟩, hundeclared⟩
  · rintro ⟨slot, hslot, ⟨c, hc, hsource⟩, hundeclared⟩
    exact ⟨slot, output, hslot, ref, ⟨c, hc, hsource⟩, hundeclared, rfl, rfl⟩

/-! ## The first fault is a fault -/

theorem hasFault_of_outcomeFault? {position : Nat} {o : Outcome} {fault : SummaryFault}
    (ho : s.outcomes[position]? = some o) (h : s.outcomeFault? position o = some fault) :
    s.HasFault fault := by
  unfold outcomeFault? at h
  split at h
  · rename_i hlength
    cases h
    have hne : s.outcomes ≠ [] := List.ne_nil_of_mem (List.mem_of_getElem? ho)
    have hfirst := List.head?_eq_some_head hne
    exact ⟨hlength, ⟨_, hfirst, (outputCount_eq hfirst).symm⟩, o, ho, rfl⟩
  · obtain ⟨⟨output, ref⟩, hfirst, rfl⟩ := Option.map_eq_some_iff.mp h
    obtain ⟨slot, hslot, hsource, hundeclared⟩ :=
      mem_undeclaredInputs_iff.mp (List.mem_of_head? hfirst)
    exact ⟨o, slot, ho, hslot, hsource, hundeclared⟩

theorem hasFault_of_fault? {fault : SummaryFault} (h : s.fault? = some fault) :
    s.HasFault fault := by
  unfold fault? at h
  split at h
  · rename_i hempty
    cases h
    exact List.isEmpty_iff.mp hempty
  · obtain ⟨⟨o, position⟩, hmem, hfault⟩ := List.exists_of_findSome?_eq_some h
    exact hasFault_of_outcomeFault? (List.mk_mem_zipIdx_iff_getElem?.mp hmem) hfault

/-! ## No other fault is left -/

theorem outcomeFault?_eq_none {position : Nat} {o : Outcome}
    (h : s.outcomeFault? position o = none) :
    o.outputs.length = s.outputCount ∧ s.undeclaredInputs o = [] := by
  unfold outcomeFault? at h
  split at h
  · cases h
  · rename_i hlength
    exact ⟨by simpa using hlength, by simpa using h⟩

theorem not_hasFault_of_fault? (hname : s.name ≠ "") (h : s.fault? = none)
    (fault : SummaryFault) : ¬ s.HasFault fault := by
  unfold fault? at h
  split at h
  · cases h
  rename_i houtcomes
  have hnone : ∀ {position : Nat} {o : Outcome}, s.outcomes[position]? = some o →
      o.outputs.length = s.outputCount ∧ s.undeclaredInputs o = [] := by
    intro position o ho
    exact outcomeFault?_eq_none
      (List.findSome?_eq_none_iff.mp h (o, position) (List.mk_mem_zipIdx_iff_getElem?.mpr ho))
  cases fault with
  | emptyName => exact hname
  | noOutcomes => exact fun hnil => houtcomes (List.isEmpty_iff.mpr hnil)
  | outputCount position outputs expected =>
      rintro ⟨hne, ⟨first, hfirst, rfl⟩, o, ho, rfl⟩
      exact hne ((hnone ho).1.trans (outputCount_eq hfirst))
  | undeclaredInput position output arg component =>
      rintro ⟨o, slot, ho, hslot, hsource, hundeclared⟩
      have hmem := mem_undeclaredInputs_iff.mpr ⟨slot, hslot, hsource, hundeclared⟩
      rw [(hnone ho).2] at hmem
      cases hmem
  | alreadyRegistered => exact id

/-- **A summary is accepted if it has no fault; otherwise the error reports one that it has.** -/
theorem check_cases (s : Summary) :
    s.check = .ok () ∧ (∀ fault, ¬ s.HasFault fault) ∨
      ∃ fault, s.HasFault fault ∧ s.check = .error (.summary s.label fault) := by
  unfold check label
  split
  · rename_i hname
    exact Or.inr ⟨.emptyName, hname, rfl⟩
  · rename_i hname
    split
    · rename_i fault hfault
      exact Or.inr ⟨fault, hasFault_of_fault? hfault, rfl⟩
    · rename_i hfault
      exact Or.inl ⟨rfl, not_hasFault_of_fault? hname hfault⟩

theorem check_eq_ok_iff : s.check = .ok () ↔ ∀ fault, ¬ s.HasFault fault := by
  rcases s.check_cases with ⟨hok, hnone⟩ | ⟨fault, hfault, herror⟩
  · exact ⟨fun _ => hnone, fun _ => hok⟩
  · rw [herror]
    constructor
    · intro hok
      cases hok
    · exact fun hnone => absurd hfault (hnone fault)

/-- The sources of an accepted summary are declared. -/
theorem exists_declares_of_check (h : s.check = .ok ()) {o : Outcome} (ho : o ∈ s.outcomes)
    {slot : OutputSlot} (hslot : slot ∈ o.outputs) {c : OutputComponent}
    (hc : c ∈ slot.components) {ref : InputRef} (href : c.source = some ref) :
    ∃ path, s.Declares ref path := by
  obtain ⟨position, ho⟩ := List.mem_iff_getElem?.mp ho
  obtain ⟨output, hslot⟩ := List.mem_iff_getElem?.mp hslot
  apply Classical.byContradiction
  intro hnone
  exact check_eq_ok_iff.mp h (.undeclaredInput position output ref.arg ref.component)
    ⟨o, slot, ho, hslot, ⟨c, hc, href⟩, fun path hpath => hnone ⟨path, hpath⟩⟩

end Summary

end SliceLineage
