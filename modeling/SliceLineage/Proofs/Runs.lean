import SliceLineage.Build.Expr

/-!
# Runs of basic steps

What a step does from a given state: the parts of a run that succeeds, and the outcome of the steps
that evaluation is made of, none of which can fail.

* `run_bind_of_ok`, `exists_of_run_bind`: one step after another.
* `Scopes.func?`: the modelled function that a name means.
* `Build.run_modelled?`, `Build.run_callModelled`: the outcomes.
-/

namespace SliceLineage

section

variable {σ ε α β : Type} {m : StateT σ (Except ε) α} {k : α → StateT σ (Except ε) β}

theorem run_bind_of_ok {s s' : σ} {a : α} (h : m.run s = .ok (a, s')) :
    (m >>= k).run s = (k a).run s' := by
  rw [StateT.run_bind, h]
  rfl

/-- The two parts of a run. -/
theorem exists_of_run_bind {s s' : σ} {b : β} (h : (m >>= k).run s = .ok (b, s')) :
    ∃ a s₁, m.run s = .ok (a, s₁) ∧ (k a).run s₁ = .ok (b, s') := by
  rw [StateT.run_bind] at h
  cases hm : m.run s with
  | error e =>
      rw [hm] at h
      cases h
  | ok result =>
      rw [hm] at h
      exact ⟨result.1, result.2, rfl, h⟩

end

namespace Scopes

/-- Several fresh values are numbered one after the other. -/
theorem freshMany_eq (count : Nat) : ∀ s : Scopes, s.freshMany count =
    ((List.range' s.allocated count).map .tracked,
      { s with allocated := s.allocated + count }) := by
  induction count with
  | zero => exact fun _ => rfl
  | succ n ih =>
      intro s
      have hrest := ih s.fresh.2
      have hcount : s.allocated + 1 + n = s.allocated + (n + 1) := by omega
      simp only [fresh] at hrest
      simp only [freshMany, fresh, hrest, List.range'_succ, List.map_cons, hcount]

/-- The modelled function that a name means where no declaration in scope hides it. -/
def func? (s : Scopes) (registry : Registry) (name : String) : Option FuncId :=
  if (s.lookup? name).isSome then none else registry.lookup? name

end Scopes

namespace Build

theorem run_single (span : Span) (c : Composition) (s : BuildState) :
    (single span [c]).run s = .ok (c, s) := rfl

/-- The callee is looked up and not evaluated. -/
theorem run_modelled? (registry : Registry) (callee : Expr) (s : BuildState) :
    (modelled? registry callee).run s =
      .ok (callee.name?.bind (s.scopes.func? registry), s) := by
  unfold modelled?
  cases callee.name? with
  | none => rfl
  | some name =>
      have hread : (lookup? name).run s = .ok (s.scopes.lookup? name, s) := rfl
      show (lookup? name >>= _).run s = .ok (s.scopes.func? registry name, s)
      rw [run_bind_of_ok hread, Scopes.func?]
      cases s.scopes.lookup? name <;> rfl

/-- The outputs of a call are the next values of the supply. -/
theorem run_callModelled (func : FuncId) (inputs : List Composition) (span : Span) (count : Nat)
    (s : BuildState) :
    (callModelled func inputs span count).run s =
      .ok (((List.range' s.scopes.allocated count).map .tracked).map (.of <| .whole ·),
        { cursor := s.cursor.append
            (.call func inputs ((List.range' s.scopes.allocated count).map .tracked)) (some span)
          scopes := { s.scopes with allocated := s.scopes.allocated + count } }) := by
  have hfresh : (freshMany count).run s =
      .ok ((List.range' s.scopes.allocated count).map .tracked,
        { s with scopes := { s.scopes with allocated := s.scopes.allocated + count } }) := by
    show Except.ok ((s.scopes.freshMany count).1,
      ({ s with scopes := (s.scopes.freshMany count).2 } : BuildState)) = _
    rw [Scopes.freshMany_eq]
  rw [callModelled, run_bind_of_ok hfresh]
  rfl

end Build

end SliceLineage
