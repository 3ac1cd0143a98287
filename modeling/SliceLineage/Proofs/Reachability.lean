import Mathlib.Logic.Relation
import SliceLineage.Flow.Reachable

/-!
# What saturation finds

* `mem_saturate_of_step`: what saturation has handled is closed under its step.
* `saturate_induction`: what the step keeps outside of the elements seen before holds of all that
  is found; `reaches_of_mem_saturate`: whatever is found can be reached from the queue.
* `saturate_nodup`: nothing is found twice.
* `saturate_congr`: where saturation does not come, the step makes no difference.
* `FlowGraph.Reaches`: a point that a path from the root leads to. `FlowGraph.mem_reachable_iff`:
  these are the points that are listed.
-/

namespace SliceLineage

section

variable {α : Type} [DecidableEq α] {step : α → List α} {inside : α → Prop}
  {confined : Confined step inside}

/-- Saturation keeps what was seen and adds new elements behind it. -/
theorem saturate_eq_append (confined : Confined step inside) (seen queue : List α)
    (queued : ∀ a ∈ queue, inside a) :
    ∃ found, saturate step confined seen queue queued = seen ++ found := by
  fun_induction saturate step confined seen queue queued with
  | case1 seen => exact ⟨[], by simp⟩
  | case2 seen a rest _ queued ih =>
      obtain ⟨found, hfound⟩ := ih
      exact ⟨newOnes seen (step a) ++ found, by rw [hfound, List.append_assoc]⟩

theorem mem_saturate_of_mem {seen queue : List α} {queued : ∀ a ∈ queue, inside a} {a : α}
    (ha : a ∈ seen) : a ∈ saturate step confined seen queue queued := by
  obtain ⟨found, hfound⟩ := saturate_eq_append confined seen queue queued
  rw [hfound]
  exact List.mem_append_left _ ha

/-- Where the step leads to from an element of the queue, or from a new one, is found as well. -/
theorem mem_saturate_of_step (seen queue : List α) (queued : ∀ a ∈ queue, inside a) :
    ∀ a ∈ saturate step confined seen queue queued, a ∈ queue ∨ a ∉ seen →
      ∀ b ∈ step a, b ∈ saturate step confined seen queue queued := by
  fun_induction saturate step confined seen queue queued with
  | case1 seen =>
      intro a ha hnew
      rcases hnew with hq | hn
      · cases hq
      · exact absurd ha hn
  | case2 seen c rest _ queued ih =>
      intro a ha hnew b hb
      by_cases hac : a = c
      · -- the element that is handled now: all its successors are seen after it
        subst hac
        apply mem_saturate_of_mem
        by_cases hbs : b ∈ seen
        · exact List.mem_append_left _ hbs
        · exact List.mem_append_right _ (mem_newOnes.mpr ⟨hb, hbs⟩)
      · refine ih a ha ?_ b hb
        rcases hnew with hq | hn
        · rcases List.mem_cons.mp hq with rfl | hq
          · exact absurd rfl hac
          · exact Or.inl (List.mem_append_left _ hq)
        · by_cases hnewa : a ∈ newOnes seen (step c)
          · exact Or.inl (List.mem_append_right _ hnewa)
          · refine Or.inr fun h => ?_
            rcases List.mem_append.mp h with h | h
            · exact hn h
            · exact hnewa h

/-- A property of the queue that the step keeps, except where it leads back to what was seen before
the queue, holds of all that is found. -/
theorem saturate_induction {P : α → Prop} (before : List α)
    (hstep : ∀ a, P a → ∀ b ∈ step a, b ∉ before → P b) (seen queue : List α)
    (queued : ∀ a ∈ queue, inside a) (hbefore : before ⊆ seen) (hqueue : ∀ a ∈ queue, P a) :
    ∀ a ∈ saturate step confined seen queue queued, a ∈ seen ∨ P a := by
  fun_induction saturate step confined seen queue queued with
  | case1 seen => exact fun a ha => Or.inl ha
  | case2 seen c rest _ queued ih =>
      have hnew : ∀ b ∈ newOnes seen (step c), P b := by
        intro b hb
        obtain ⟨hb, hunseen⟩ := mem_newOnes.mp hb
        exact hstep c (hqueue c List.mem_cons_self) b hb fun h => hunseen (hbefore h)
      have hrest : ∀ b ∈ rest ++ newOnes seen (step c), P b := by
        intro b hb
        rcases List.mem_append.mp hb with hb | hb
        · exact hqueue b (List.mem_cons_of_mem _ hb)
        · exact hnew b hb
      intro a ha
      rcases ih (fun b hb => List.mem_append_left _ (hbefore hb)) hrest a ha with ha | ha
      · rcases List.mem_append.mp ha with ha | ha
        · exact Or.inl ha
        · exact Or.inr (hnew a ha)
      · exact Or.inr ha

theorem reaches_of_mem_saturate (seen queue : List α) (queued : ∀ a ∈ queue, inside a) :
    ∀ a ∈ saturate step confined seen queue queued, a ∈ seen ∨
      ∃ s ∈ queue, Relation.ReflTransGen (fun x y => y ∈ step x) s a := by
  apply saturate_induction [] _ seen queue queued (List.nil_subset _)
  · exact fun s hs => ⟨s, hs, Relation.ReflTransGen.refl⟩
  · rintro a ⟨s, hs, hr⟩ b hb -
    exact ⟨s, hs, hr.tail hb⟩

theorem newOnes_nodup (seen found : List α) : (newOnes seen found).Nodup := by
  induction found generalizing seen with
  | nil => exact List.nodup_nil
  | cons a rest ih =>
      rw [newOnes]
      split
      · exact ih seen
      · refine List.nodup_cons.mpr ⟨fun h => ?_, ih (a :: seen)⟩
        exact (mem_newOnes.mp h).2 List.mem_cons_self

/-- Nothing is found twice. -/
theorem saturate_nodup (confined : Confined step inside) (seen queue : List α)
    (queued : ∀ a ∈ queue, inside a) (hseen : seen.Nodup) :
    (saturate step confined seen queue queued).Nodup := by
  fun_induction saturate step confined seen queue queued with
  | case1 seen => exact hseen
  | case2 seen c rest _ queued ih =>
      refine ih (List.nodup_append.mpr ⟨hseen, newOnes_nodup seen (step c), ?_⟩)
      rintro a ha b hb rfl
      exact (mem_newOnes.mp hb).2 ha

/-- Saturation only looks at the step where it leads from the queue. -/
theorem saturate_congr {step' : α → List α} {inside' : α → Prop} {live : α → Prop}
    (hsame : ∀ a, live a → step' a = step a) (hlive : ∀ a, live a → ∀ b ∈ step a, live b)
    (confined : Confined step inside) (confined' : Confined step' inside') (seen queue : List α)
    (queued : ∀ a ∈ queue, inside a) (queued' : ∀ a ∈ queue, inside' a)
    (hqueue : ∀ a ∈ queue, live a) :
    saturate step' confined' seen queue queued' = saturate step confined seen queue queued := by
  fun_induction saturate step confined seen queue queued with
  | case1 seen => rw [saturate]
  | case2 seen a rest _ queued ih =>
      have ha := hqueue a List.mem_cons_self
      rw [saturate]
      simp only [hsame a ha]
      refine ih _ fun b hb => ?_
      rcases List.mem_append.mp hb with hb | hb
      · exact hqueue b (List.mem_cons_of_mem _ hb)
      · exact hlive a ha b (mem_newOnes.mp hb).1

end

namespace FlowGraph

/-- A path leads from the root to the point. -/
def Reaches (g : FlowGraph) (p : PointId) : Prop :=
  Relation.ReflTransGen (fun p q => q ∈ g.targets p) g.root p

theorem Reaches.root (g : FlowGraph) : g.Reaches g.root := Relation.ReflTransGen.refl

theorem Reaches.step {g : FlowGraph} {p : PointId} (hp : g.Reaches p) {t : Transition}
    (ht : t ∈ g.successors p) : g.Reaches t.target :=
  Relation.ReflTransGen.tail hp (List.mem_map_of_mem ht)

theorem mem_reachable_iff {g : FlowGraph} {p : PointId} : p ∈ g.reachable ↔ g.Reaches p := by
  constructor
  · intro hp
    rcases reaches_of_mem_saturate _ _ _ p hp with hp | ⟨s, hs, hr⟩
    · rw [List.mem_singleton.mp hp]
      exact Reaches.root g
    · rw [List.mem_singleton.mp hs] at hr
      exact hr
  · intro hr
    induction hr with
    | refl => exact mem_saturate_of_mem (List.mem_singleton.mpr rfl)
    | @tail r q _ hq ih =>
        refine mem_saturate_of_step _ _ _ r ih ?_ q hq
        by_cases hroot : r = g.root
        · exact Or.inl (List.mem_singleton.mpr hroot)
        · exact Or.inr fun h => hroot (List.mem_singleton.mp h)

end FlowGraph

end SliceLineage
