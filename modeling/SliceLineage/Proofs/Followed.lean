import SliceLineage.Composition

/-!
# The values that a composition is made of

A composition is made of the values that its selectors start from. Selecting a field and nesting
leave these values as they are, so what holds of all values of a composition goes on holding.

* `Composition.followed`: the values apart from blank.
* `Composition.All`: a property of all of them.
-/

namespace SliceLineage

/-- Selecting a field does not change the value that an embed is taken from. -/
theorem Embed.value_select {e e' : Embed} {name : String} (h : e.select name = some e') :
    e'.selector.value = e.selector.value := by
  unfold select at h
  split at h
  · split at h
    · cases h
      rfl
    · cases h
  · split at h
    · cases h
    · cases h
      rfl

namespace Composition

theorem exists_embed_of_mem_select {c : Composition} {name : String} {e : Embed}
    (h : e ∈ (c.select name).embeds) (hb : e.selector.isBlank = false) :
    ∃ e₀ ∈ c.embeds, e₀.selector.value = e.selector.value := by
  unfold select at h
  split at h
  · rw [List.mem_singleton.mp h] at hb
    cases hb
  · obtain ⟨e₀, he₀, hselect⟩ := List.mem_filterMap.mp h
    exact ⟨e₀, he₀, (Embed.value_select hselect).symm⟩

/-- The values that a composition is made of, apart from blank. -/
def followed (c : Composition) : List ValueId :=
  (c.embeds.map (·.selector.value)).filter (!·.isBlank)

theorem mem_followed {c : Composition} {v : ValueId} :
    v ∈ c.followed ↔ v ≠ .blank ∧ ∃ e ∈ c.embeds, e.selector.value = v := by
  simp only [followed, List.mem_filter, List.mem_map, Bool.not_eq_true',
    ValueId.isBlank_eq_false_iff]
  exact and_comm

theorem mem_followed_whole {v w : ValueId} (h : v ∈ (of (.whole w)).followed) : v = w := by
  obtain ⟨-, e, he, rfl⟩ := mem_followed.mp h
  rw [List.mem_singleton.mp he]
  rfl

theorem mem_followed_of_select {c : Composition} {name : String} {v : ValueId}
    (h : v ∈ (c.select name).followed) : v ∈ c.followed := by
  obtain ⟨hv, e, he, rfl⟩ := mem_followed.mp h
  obtain ⟨e₀, he₀, hvalue⟩ :=
    exists_embed_of_mem_select he (ValueId.isBlank_eq_false_iff.mpr hv)
  exact mem_followed.mpr ⟨hv, e₀, he₀, hvalue⟩

/-- All values that the composition is made of have the property. -/
def All (p : ValueId → Prop) (c : Composition) : Prop := ∀ v ∈ c.followed, p v

variable {p q : ValueId → Prop} {c : Composition}

theorem All.imp (h : c.All p) (hpq : ∀ v, p v → q v) : c.All q := fun v hv => hpq v (h v hv)

theorem all_blank : blank.All p := fun _ hv => by cases hv

theorem all_whole {v : ValueId} (h : v ≠ .blank → p v) : (of (.whole v)).All p := by
  intro w hw
  obtain rfl := mem_followed_whole hw
  exact h (mem_followed.mp hw).1

theorem All.select (h : c.All p) (name : String) : (c.select name).All p :=
  fun v hv => h v (mem_followed_of_select hv)

theorem All.nest (h : c.All p) (name : String) : (c.nest name).All p := by
  intro v hv
  obtain ⟨hblank, e, he, rfl⟩ := mem_followed.mp hv
  obtain ⟨e', he', rfl⟩ := List.mem_map.mp he
  exact h _ (mem_followed.mpr ⟨hblank, e', he', rfl⟩)

theorem all_append {first second : List Embed} (hfirst : (mk first).All p)
    (hsecond : (mk second).All p) : (mk (first ++ second)).All p := by
  intro v hv
  obtain ⟨hblank, e, he, rfl⟩ := mem_followed.mp hv
  rcases List.mem_append.mp he with he | he
  · exact hfirst _ (mem_followed.mpr ⟨hblank, e, he, rfl⟩)
  · exact hsecond _ (mem_followed.mpr ⟨hblank, e, he, rfl⟩)

end Composition

end SliceLineage
