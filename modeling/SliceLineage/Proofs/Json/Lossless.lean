import Mathlib
import SliceLineage.Json.Summary
import SliceLineage.Proofs.Json.Trees

/-!
# The JSON form loses nothing

Operations, transitions and summaries are read back as they were written, as source trees are.
Identifiers are numbers of 32 bits in JSON, and the largest of them is taken for the blank value, so
an operation survives just if its identifiers are small enough.

* `Operation.FitsWord`, `Transition.FitsWord`: all identifiers have a number in JSON.
* `toJson_lossless`: the round trips and what they say about different things.
-/

namespace SliceLineage

/-! ## Identifiers and regions -/

namespace ValueId

/-- The value has a number of its own in JSON. -/
def FitsWord : ValueId → Prop
  | blank => True
  | tracked index => index < blankCode

instance : DecidablePred FitsWord
  | blank => inferInstanceAs (Decidable True)
  | tracked index => inferInstanceAs (Decidable (index < blankCode))

theorem ofJson?_toJson_iff {v : ValueId} : ofJson? v.toJson = some v ↔ v.FitsWord := by
  cases v with
  | blank => simp [toJson, ofJson?, Json.natBelow?_nat, FitsWord, blankCode]
  | tracked index =>
      simp only [toJson, ofJson?, Json.natBelow?_nat, FitsWord, blankCode]
      grind

end ValueId

namespace FieldPath

theorem ofJson?_toJson (p : FieldPath) : ofJson? p.toJson = some p := Json.strings?_list p

end FieldPath

namespace Selector

def FitsWord (s : Selector) : Prop := s.value.FitsWord

instance : DecidablePred FitsWord := fun s => inferInstanceAs (Decidable s.value.FitsWord)

theorem ofJson?_toJson_iff {s : Selector} : ofJson? s.toJson = some s ↔ s.FitsWord := by
  obtain ⟨value, path⟩ := s
  rw [FitsWord, ← ValueId.ofJson?_toJson_iff]
  cases path <;>
    simp [toJson, ofJson?, FieldPath.member, FieldPath.ofJson?_toJson, List.lookup,
      Option.bind_eq_some_iff]

end Selector

namespace Embed

def FitsWord (e : Embed) : Prop := e.selector.FitsWord

instance : DecidablePred FitsWord := fun e => inferInstanceAs (Decidable e.selector.FitsWord)

theorem ofJson?_toJson_iff {e : Embed} : ofJson? e.toJson = some e ↔ e.FitsWord := by
  obtain ⟨path, selector⟩ := e
  rw [FitsWord, ← Selector.ofJson?_toJson_iff]
  cases path <;>
    simp [toJson, ofJson?, FieldPath.member, FieldPath.ofJson?_toJson, List.lookup,
      Option.bind_eq_some_iff]

end Embed

namespace Composition

def FitsWord (c : Composition) : Prop := ∀ e ∈ c.embeds, e.FitsWord

instance : DecidablePred FitsWord := fun c =>
  inferInstanceAs (Decidable (∀ e ∈ c.embeds, e.FitsWord))

theorem ofJson?_toJson_iff {c : Composition} : ofJson? c.toJson = some c ↔ c.FitsWord := by
  obtain ⟨embeds⟩ := c
  simp [toJson, ofJson?, FitsWord, Json.mapM_eq_some_self_iff, Embed.ofJson?_toJson_iff]

end Composition

theorem PointId.ofJson?_toJson_iff {p : PointId} :
    ofJson? p.toJson = some p ↔ p.index < UInt32.size := by
  simp [toJson, ofJson?, Json.natBelow?_nat]

theorem FuncId.ofJson?_toJson_iff {f : FuncId} :
    ofJson? f.toJson = some f ↔ f.index < UInt32.size := by
  simp [toJson, ofJson?, Json.natBelow?_nat]

@[simp]
theorem GenStep.ofJson?_toJson (s : GenStep) : ofJson? s.toJson = some s := by
  cases s <;> rfl

/-! ## Operations -/

namespace Operation

/-- All identifiers of the operation have a number in JSON. -/
def FitsWord : Operation → Prop
  | assign source target => source.FitsWord ∧ target.FitsWord
  | call func inputs outputs =>
      func.index < UInt32.size ∧ (∀ c ∈ inputs, c.FitsWord) ∧ ∀ v ∈ outputs, v.FitsWord
  | ret values => ∀ v ∈ values, v.FitsWord
  | noop => True
  | move source target _ => source.FitsWord ∧ target.FitsWord

instance : DecidablePred FitsWord
  | assign source target => inferInstanceAs (Decidable (source.FitsWord ∧ target.FitsWord))
  | call func inputs outputs => inferInstanceAs (Decidable
      (func.index < UInt32.size ∧ (∀ c ∈ inputs, c.FitsWord) ∧ ∀ v ∈ outputs, v.FitsWord))
  | ret values => inferInstanceAs (Decidable (∀ v ∈ values, v.FitsWord))
  | noop => inferInstanceAs (Decidable True)
  | move source target _ => inferInstanceAs (Decidable (source.FitsWord ∧ target.FitsWord))

theorem ofJson?_toJson_iff {op : Operation} : ofJson? op.toJson = some op ↔ op.FitsWord := by
  cases op with
  | assign source target =>
      simp [toJson, ofJson?, List.lookup, FitsWord, Option.bind_eq_some_iff,
        ← Selector.ofJson?_toJson_iff]
  | call func inputs outputs =>
      simp [toJson, ofJson?, List.lookup, FitsWord, Option.bind_eq_some_iff,
        Json.mapM_eq_some_self_iff, ← FuncId.ofJson?_toJson_iff,
        ← Composition.ofJson?_toJson_iff, ← ValueId.ofJson?_toJson_iff]
  | ret values =>
      simp [toJson, ofJson?, List.lookup, FitsWord, Option.bind_eq_some_iff,
        Json.mapM_eq_some_self_iff, ← ValueId.ofJson?_toJson_iff]
  | noop => simp [toJson, ofJson?, List.lookup, FitsWord]
  | move source target step =>
      simp [toJson, ofJson?, List.lookup, FitsWord, Option.bind_eq_some_iff,
        ← ValueId.ofJson?_toJson_iff]

end Operation

namespace Transition

/-- The target and all identifiers of the operation have a number in JSON. -/
def FitsWord (t : Transition) : Prop := t.target.index < UInt32.size ∧ t.op.FitsWord

instance : DecidablePred FitsWord := fun t =>
  inferInstanceAs (Decidable (t.target.index < UInt32.size ∧ t.op.FitsWord))

theorem ofJson?_toJson_iff {t : Transition} : ofJson? t.toJson = some t ↔ t.FitsWord := by
  obtain ⟨target, op⟩ := t
  simp [toJson, ofJson?, List.lookup, FitsWord, Option.bind_eq_some_iff,
    ← PointId.ofJson?_toJson_iff, ← Operation.ofJson?_toJson_iff]

end Transition

/-! ## Summaries -/

@[simp]
theorem InputRef.ofJson?_toJson (r : InputRef) : ofJson? r.toJson = some r := by
  simp [toJson, ofJson?, List.lookup, Json.hasOnly]

/-- No input region is written as null, so that null can stand for a fresh output. -/
theorem InputRef.ofNullable?_opt (source : Option InputRef) :
    (Json.opt toJson source).ofNullable? ofJson? = some source := by
  cases source with
  | none => rfl
  | some r =>
      have h : (Json.opt toJson (some r)).ofNullable? ofJson? = (ofJson? r.toJson).map some := rfl
      rw [h, ofJson?_toJson, Option.map_some]

theorem InputSlot.ofJson?_toJson (s : InputSlot) : ofJson? s.toJson = some s := by
  have hpaths := Json.mapM_eq_some_self_iff.mpr fun p (_ : p ∈ s.components) =>
    FieldPath.ofJson?_toJson p
  simp [toJson, ofJson?, List.lookup, Json.hasOnly, hpaths]

theorem OutputComponent.ofJson?_toJson (c : OutputComponent) : ofJson? c.toJson = some c := by
  simp [toJson, ofJson?, List.lookup, Json.hasOnly, FieldPath.ofJson?_toJson,
    InputRef.ofNullable?_opt]

theorem OutputSlot.ofJson?_toJson (s : OutputSlot) : ofJson? s.toJson = some s := by
  have hcomponents := Json.mapM_eq_some_self_iff.mpr fun c (_ : c ∈ s.components) =>
    OutputComponent.ofJson?_toJson c
  simp [toJson, ofJson?, List.lookup, Json.hasOnly, hcomponents]

theorem Outcome.ofJson?_toJson (o : Outcome) : ofJson? o.toJson = some o := by
  have houtputs := Json.mapM_eq_some_self_iff.mpr fun s (_ : s ∈ o.outputs) =>
    OutputSlot.ofJson?_toJson s
  simp [toJson, ofJson?, List.lookup, Json.hasOnly, houtputs]

theorem Summary.ofJson?_toJson (s : Summary) : ofJson? s.toJson = some s := by
  have hinputs := Json.mapM_eq_some_self_iff.mpr fun i (_ : i ∈ s.inputs) =>
    InputSlot.ofJson?_toJson i
  have houtcomes := Json.mapM_eq_some_self_iff.mpr fun o (_ : o ∈ s.outcomes) =>
    Outcome.ofJson?_toJson o
  simp [toJson, ofJson?, List.lookup, Json.hasOnly, hinputs, houtcomes]

/-! ## What is written once -/

/-- Things that are read back as they were written are written differently. -/
theorem Json.injOn_of_roundTrip {α : Type} {encode : α → Json} {decode : Json → Option α}
    {s : Set α} (h : ∀ a ∈ s, decode (encode a) = some a) : s.InjOn encode := by
  intro a ha b hb heq
  have hsome : some a = some b := calc
    some a = decode (encode a) := (h a ha).symm
    _ = decode (encode b) := by rw [heq]
    _ = some b := h b hb
  exact Option.some.inj hsome

/-- Functions and summaries are read back as they were written, and so are the operations and
transitions whose identifiers are in range, and no others. Hence different functions, summaries,
operations and transitions have different JSON values. -/
theorem toJson_lossless :
    (∀ f : FunctionDecl, FunctionDecl.ofJson? f.toJson = some f) ∧
    (∀ op : Operation, Operation.ofJson? op.toJson = some op ↔ op.FitsWord) ∧
    (∀ t : Transition, Transition.ofJson? t.toJson = some t ↔ t.FitsWord) ∧
    (∀ s : Summary, Summary.ofJson? s.toJson = some s) ∧
    Function.Injective FunctionDecl.toJson ∧
    {op : Operation | op.FitsWord}.InjOn Operation.toJson ∧
    {t : Transition | t.FitsWord}.InjOn Transition.toJson ∧
    Function.Injective Summary.toJson := by
  refine ⟨FunctionDecl.ofJson?_toJson, fun _ => Operation.ofJson?_toJson_iff,
    fun _ => Transition.ofJson?_toJson_iff, Summary.ofJson?_toJson, ?_, ?_, ?_, ?_⟩
  · exact Set.injOn_univ.mp (Json.injOn_of_roundTrip fun f _ => FunctionDecl.ofJson?_toJson f)
  · exact Json.injOn_of_roundTrip fun _ => Operation.ofJson?_toJson_iff.mpr
  · exact Json.injOn_of_roundTrip fun _ => Transition.ofJson?_toJson_iff.mpr
  · exact Set.injOn_univ.mp (Json.injOn_of_roundTrip fun s _ => Summary.ofJson?_toJson s)

/-- A call on regions with and without paths, with a blank output. -/
example : (Transition.mk ⟨7⟩ (.call ⟨3⟩
    [⟨[⟨["Name"], ⟨.tracked 4, []⟩⟩, ⟨[], ⟨.blank, ["Tags"]⟩⟩]⟩, .unknown]
    [.tracked 5, .blank])).FitsWord := by decide

end SliceLineage
