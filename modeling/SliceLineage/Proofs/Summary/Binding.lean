import SliceLineage.Proofs.Projection
import SliceLineage.Proofs.Summary.Faults

/-!
# What a call carries from its arguments to its outputs

Binding a summary selects the declared regions out of the arguments, puts them below the components
of the outputs, and spreads them over as many assignments as the arguments have embeds there. What
arrives in a region of an output is what the argument places in the declared region.

* `BoundAssignment.carried?`: what an assignment brings to a region.
* `Summary.filterMap_carried?_bindComponent`: the assignments to a component bring what the
  component is made of.
* `Summary.bind_carries_declared_regions`: so they bring what the declared region of the argument
  is made of, and a new value if there is none.
-/

namespace SliceLineage

theorem FieldPath.below?_append_left (fields base path : FieldPath) :
    (fields ++ base).below? (fields ++ path) = base.below? path := by
  induction fields with
  | nil => rfl
  | cons name rest ih => simpa [FieldPath.below?] using ih

/-- The followed region that an assignment brings to the region `r`, if its target leads there. -/
def BoundAssignment.carried? (a : BoundAssignment) (r : Selector) : Option Selector :=
  if a.target.value = r.value then Embed.placed? ⟨a.target.path, a.source⟩ r.path else none

theorem BoundAssignment.carried?_extend (source target : Selector) (step : GenStep)
    (below path : FieldPath) :
    carried? ⟨source, target.extend below, step⟩ (target.extend path) =
      Embed.placed? ⟨below, source⟩ path := by
  simp [carried?, Embed.placed?, Selector.extend, FieldPath.below?_append_left]

namespace Summary

variable {s : Summary} {args : List Composition} {output : ValueId} {c : OutputComponent}
  {a : BoundAssignment}

/-! ## What a component is made of -/

theorem supply_eq_selectPath {ref : InputRef} (href : c.source = some ref) {path : FieldPath}
    (hpath : s.Declares ref path) {arg : Composition} (harg : args[ref.arg.toNat]? = some arg) :
    s.supply args c = arg.selectPath path := by
  simp [supply, href, harg, inputPath?_eq_some_iff.mpr hpath]

theorem supply_eq_blank
    (h : c.source = none ∨ ∃ ref, c.source = some ref ∧ args[ref.arg.toNat]? = none) :
    s.supply args c = .blank := by
  rcases h with hsource | ⟨ref, href, hmissing⟩
  · simp [supply, hsource]
  · simp [supply, href, hmissing]

/-! ## The assignments to a component -/

/-- Every assignment to a component goes to the output. -/
theorem value_of_mem_bindComponent (ha : a ∈ s.bindComponent args output c) :
    a.target.value = output := by
  unfold bindComponent at ha
  split at ha
  · rw [List.mem_singleton.mp ha]
  · obtain ⟨e, -, rfl⟩ := List.mem_map.mp ha
    rfl

theorem step_of_mem_bindComponent (ha : a ∈ s.bindComponent args output c) : a.step = c.step := by
  unfold bindComponent at ha
  split at ha
  · rw [List.mem_singleton.mp ha]
  · obtain ⟨e, -, rfl⟩ := List.mem_map.mp ha
    rfl

/-- **The assignments to a component bring what it is made of.** The embeds of the supply become
assignments one by one, below the path of the component. -/
theorem filterMap_carried?_bindComponent (s : Summary) (args : List Composition)
    (output : ValueId) (c : OutputComponent) (path : FieldPath) :
    (s.bindComponent args output c).filterMap (·.carried? ⟨output, c.path ++ path⟩) =
      (s.supply args c).placed path := by
  have hregion : (⟨output, c.path ++ path⟩ : Selector) =
      Selector.extend ⟨output, c.path⟩ path := rfl
  unfold bindComponent Composition.placed
  cases (s.supply args c).embeds with
  | nil =>
      have hblank : Selector.blank.isBlank = true := rfl
      simp [BoundAssignment.carried?, Embed.placed?, hblank]
  | cons e rest =>
      simp only [List.filterMap_map, hregion]
      refine congrArg (List.filterMap · (e :: rest)) (funext fun e' => ?_)
      exact BoundAssignment.carried?_extend e'.selector _ c.step e'.path path

theorem bindComponent_of_supply_eq_blank (h : s.supply args c = .blank) :
    s.bindComponent args output c = [⟨.blank, ⟨output, c.path⟩, c.step⟩] := by
  simp [bindComponent, h, Composition.blank, Composition.of]

/-! ## The assignments of an outcome -/

theorem exists_output_of_mem_bindOutcome {outputs : List ValueId} {o : Outcome}
    (ha : a ∈ s.bindOutcome args outputs o) :
    ∃ k < o.outputs.length, outputs[k]? = some a.target.value := by
  obtain ⟨⟨slot, output⟩, hpair, ha⟩ := List.mem_flatMap.mp ha
  obtain ⟨c, -, ha⟩ := List.mem_flatMap.mp ha
  obtain ⟨k, hk⟩ := List.mem_iff_getElem?.mp hpair
  obtain ⟨hslot, houtput⟩ := List.getElem?_zip_eq_some.mp hk
  obtain ⟨hlt, -⟩ := List.getElem?_eq_some_iff.mp hslot
  refine ⟨k, hlt, ?_⟩
  rw [value_of_mem_bindComponent ha]
  exact houtput

/-- **Binding carries exactly the declared regions.** For a summary that passes its check, every
outcome gives one list: the assignments to the components of the outputs that the outcome has a
slot for and the caller asked for, in order, each with the step of its component. Every source is
declared. If its argument is there, the assignments to the component bring to each region of it what
the argument places in the corresponding part of the declared region; if the argument is missing, or
the component has no source, there is one assignment from blank. -/
theorem bind_carries_declared_regions {s : Summary} (hs : s.check = .ok ())
    (args : List Composition) (outputs : List ValueId) :
    (s.bind args outputs).length = s.outcomes.length ∧
    ∀ (position : Nat) (o : Outcome), s.outcomes[position]? = some o →
      ∃ bound, (s.bind args outputs)[position]? = some bound ∧
      bound = (o.outputs.zip outputs).flatMap (fun asked =>
        asked.1.components.flatMap (s.bindComponent args asked.2)) ∧
      (∀ a ∈ bound, ∃ k < o.outputs.length, outputs[k]? = some a.target.value) ∧
      ∀ (k : Nat) (slot : OutputSlot) (output : ValueId),
        o.outputs[k]? = some slot → outputs[k]? = some output → ∀ c ∈ slot.components,
        (∀ a ∈ s.bindComponent args output c, a ∈ bound ∧ a.step = c.step) ∧
        (∀ ref, c.source = some ref → ∃ path, s.Declares ref path ∧
          ∀ arg, args[ref.arg.toNat]? = some arg → ∀ p,
            (s.bindComponent args output c).filterMap (·.carried? ⟨output, c.path ++ p⟩) =
              arg.placed (path ++ p)) ∧
        ((c.source = none ∨ ∃ ref, c.source = some ref ∧ args[ref.arg.toNat]? = none) →
          s.bindComponent args output c = [⟨.blank, ⟨output, c.path⟩, c.step⟩]) := by
  refine ⟨List.length_map _, fun position o ho => ⟨s.bindOutcome args outputs o, ?_, rfl,
    fun a ha => exists_output_of_mem_bindOutcome ha, ?_⟩⟩
  · simp [bind, ho]
  intro k slot output hslot houtput c hc
  have hasked : (slot, output) ∈ o.outputs.zip outputs :=
    List.mem_of_getElem? (List.getElem?_zip_eq_some.mpr ⟨hslot, houtput⟩)
  refine ⟨fun a ha => ⟨?_, step_of_mem_bindComponent ha⟩, fun ref href => ?_,
    fun hmissing => bindComponent_of_supply_eq_blank (supply_eq_blank hmissing)⟩
  · exact List.mem_flatMap.mpr ⟨(slot, output), hasked, List.mem_flatMap.mpr ⟨c, hc, ha⟩⟩
  · obtain ⟨path, hpath⟩ := exists_declares_of_check hs (List.mem_of_getElem? ho)
      (List.mem_of_getElem? hslot) hc href
    refine ⟨path, hpath, fun arg harg p => ?_⟩
    rw [filterMap_carried?_bindComponent, supply_eq_selectPath href hpath harg,
      Composition.placed_selectPath]

/-- Two outputs; the first one takes over the field `Meta` of one argument and the whole of another
one. -/
def regroup : Summary :=
  ⟨"regroup", [⟨[["Meta"]]⟩, .whole],
    [⟨[⟨[⟨["m"], some ⟨0, 0⟩, .next⟩, ⟨["n"], some ⟨1, 0⟩, .same⟩]⟩, ⟨[.fresh]⟩]⟩]⟩

/-- The second argument is missing, and the second output is not asked for. -/
theorem regroup_carries_overlaid :
    regroup.check = .ok () ∧
    (regroup.bindComponent [.overlaid] (.tracked 9) ⟨["m"], some ⟨0, 0⟩, .next⟩).filterMap
        (·.carried? ⟨.tracked 9, ["m", "Phone"]⟩) =
      [⟨.tracked 0, ["Meta", "Phone"]⟩, ⟨.tracked 1, ["x", "Phone"]⟩, .whole (.tracked 2)] ∧
    regroup.bindComponent [.overlaid] (.tracked 9) ⟨["n"], some ⟨1, 0⟩, .same⟩ =
      [⟨.blank, ⟨.tracked 9, ["n"]⟩, .same⟩] := by
  have hcheck : regroup.check = .ok () := rfl
  obtain ⟨-, hbound⟩ := bind_carries_declared_regions hcheck [.overlaid] [.tracked 9]
  obtain ⟨bound, -, -, -, hparts⟩ := hbound 0 _ rfl
  obtain ⟨-, hcarried, -⟩ := hparts 0 _ _ rfl rfl ⟨["m"], some ⟨0, 0⟩, .next⟩ (by simp)
  obtain ⟨-, -, hmissing⟩ := hparts 0 _ _ rfl rfl ⟨["n"], some ⟨1, 0⟩, .same⟩ (by simp)
  obtain ⟨path, hpath, hplaced⟩ := hcarried _ rfl
  obtain rfl : path = ["Meta"] := by
    obtain ⟨slot, hslot, hpath⟩ := hpath
    cases hslot
    exact (Option.some.inj hpath).symm
  exact ⟨hcheck, (hplaced _ rfl ["Phone"]).trans (by decide), hmissing (Or.inr ⟨_, rfl, rfl⟩)⟩

end Summary

end SliceLineage
